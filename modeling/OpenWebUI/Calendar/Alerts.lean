import Mathlib
import OpenWebUI.Lib.Dict
import OpenWebUI.Lib.Double

/-! # Calendar alerts

`get_upcoming_events` of `backend/open_webui/models/calendar.py` and `_check_calendar_alerts` of
`backend/open_webui/utils/automations.py` on the table of events. A poll fetches the events near
their start, sends an alert for each that is due, and marks the event with the start it was alerted
for. Recurrence rules are not read. Instants are nanoseconds.
-/

namespace OpenWebUI.Calendar

open Py

/-- A value in an event's `meta`; a `bool` is an `int`, and only numbers matter here. -/
inductive MetaValue where
  | int (n : ℤ)
  | float (q : ℚ)
  | other
deriving DecidableEq

/-- A row of `calendar_event`, but for its id. -/
structure CalendarEvent where
  calendarId : String
  userId : String
  title : String
  description : Option String
  location : Option String
  startAt : ℤ
  isCancelled : Bool
  metaData : Option (Dict String MetaValue)

abbrev Table := Dict String CalendarEvent

/-- The environment: the seconds between polls and the minutes of the default look-ahead. -/
structure Settings where
  schedulerPollInterval : ℕ
  calendarAlertLookaheadMinutes : ℕ

structure Alert where
  eventId : String
  title : String
  description : String
  startAt : ℤ
  minutesUntil : ℤ
  calendarId : String
  location : String
  userId : String

variable (s : Settings)

def Settings.defaultLookaheadNs : ℤ := s.calendarAlertLookaheadMinutes * 60 * 1000000000

def Settings.graceNs : ℤ := (s.schedulerPollInterval + 5) * 1000000000

/-- The longest look-ahead of the query. -/
def Settings.maxLookaheadNs : ℤ := max s.defaultLookaheadNs (60 * 60 * 1000000000)

def metaValue (e : CalendarEvent) (key : String) : Option MetaValue := (e.metaData.getD ∅).get? key

/-- The query's filter. -/
def inWindow (nowNs : ℤ) (e : CalendarEvent) : Bool :=
  !e.isCancelled && nowNs - s.graceNs ≤ e.startAt && e.startAt ≤ nowNs + s.maxLookaheadNs

/-- The filter by the event's own look-ahead; a sum with a `float` is rounded. -/
def isUpcoming (nowNs : ℤ) (e : CalendarEvent) : Bool :=
  match metaValue e "alert_minutes" with
  | some (.int minutes) => 0 ≤ minutes && e.startAt ≤ nowNs + minutes * 60 * 1000000000
  | some (.float minutes) =>
    let lookahead := nearestDouble (nearestDouble (minutes * 60) * 1000000000)
    0 ≤ minutes && e.startAt ≤ nearestDouble (nearestDouble nowNs + lookahead)
  | _ => e.startAt ≤ nowNs + s.defaultLookaheadNs

def getUpcomingEvents (nowNs : ℤ) (table : Table) : List (String × CalendarEvent) :=
  table.entries.filter fun row => inWindow s nowNs row.2 && isUpcoming s nowNs row.2

/-- The event was alerted for its start. -/
def alreadyAlerted (e : CalendarEvent) : Bool :=
  match metaValue e "alerted_at" with
  | some (.int n) => n = e.startAt
  | some (.float q) => q = e.startAt
  | _ => false

def alertFor (nowNs : ℤ) (id : String) (e : CalendarEvent) : Alert where
  eventId := id
  title := e.title
  description := e.description.getD ""
  startAt := e.startAt
  minutesUntil := max 0 ⌊nearestDouble ((e.startAt - nowNs : ℤ) / (60 * 1000000000))⌋
  calendarId := e.calendarId
  location := e.location.getD ""
  userId := e.userId

/-- `update_event_by_id` with the mark. -/
def markAlerted (startAt : ℤ) (e : CalendarEvent) : CalendarEvent :=
  { e with metaData := some ((e.metaData.getD ∅).set "alerted_at" (.int startAt)) }

/-- One event of a poll: the table and the alerts sent so far. -/
def alertStep (nowNs : ℤ) (st : Table × List Alert) (row : String × CalendarEvent) :
    Table × List Alert :=
  if alreadyAlerted row.2 then st
  else (st.1.modify row.1 (markAlerted row.2.startAt), st.2 ++ [alertFor nowNs row.1 row.2])

def checkCalendarAlerts (nowNs : ℤ) (table : Table) : Table × List Alert :=
  (getUpcomingEvents s nowNs table).foldl (alertStep nowNs) (table, [])

/-! ## What the polls should do -/

/-- The lead of the event's alert; `none` when it has none. -/
def alertLead (e : CalendarEvent) : Option ℚ :=
  match metaValue e "alert_minutes" with
  | some (.int minutes) => if 0 ≤ minutes then some (minutes * 60 * 1000000000) else none
  | some (.float minutes) => if 0 ≤ minutes then some (minutes * 60 * 1000000000) else none
  | _ => some s.defaultLookaheadNs

/-- Polls of a table in which the event is not changed otherwise. They begin before the alert is
due, or after the start was set to a time that was still to come. -/
structure Polling (id : String) (e : CalendarEvent) (lead : ℚ) (polls : ℕ → ℤ)
    (tables : ℕ → Table) : Prop where
  stored : (tables 0).get? id = some e
  unchanged : ∀ i, (tables (i + 1)).get? id = (checkCalendarAlerts s (polls i) (tables i)).1.get? id
  active : e.isCancelled = false
  hasLead : alertLead s e = some lead
  mono : Monotone polls
  unbounded : ∀ t, ∃ i, t ≤ polls i
  gap : ∀ i, polls (i + 1) ≤ polls i + s.graceNs
  begins : (polls 0 : ℚ) < e.startAt - lead ∨ ∃ changed, polls 0 ≤ changed + s.graceNs ∧
    changed < e.startAt

/-- The first poll at or after the alert is due. -/
def FirstDue (e : CalendarEvent) (lead : ℚ) (polls : ℕ → ℤ) (i : ℕ) : Prop :=
  (e.startAt : ℚ) - lead ≤ polls i ∧ ∀ j < i, (polls j : ℚ) < e.startAt - lead

/-- The alerts for one event. -/
def alertsOf (id : String) (alerts : List Alert) : List Alert :=
    alerts.filter fun a => a.eventId = id

/-- The event is alerted once, at the first poll at or after its alert is due. -/
def AlertedOnce (id : String) (e : CalendarEvent) (lead : ℚ) (polls : ℕ → ℤ)
    (tables : ℕ → Table) : Prop :=
  ∃ i, FirstDue e lead polls i ∧ ∀ j, alertsOf id (checkCalendarAlerts s (polls j) (tables j)).2 =
    if j = i then [alertFor (polls j) id e] else []

/-! ## One poll -/

/-- The event is fetched, due and not marked. -/
def sends (nowNs : ℤ) (e : CalendarEvent) : Bool :=
  inWindow s nowNs e && isUpcoming s nowNs e && !alreadyAlerted e

variable {s} {id : String} {e : CalendarEvent} {lead : ℚ} {polls : ℕ → ℤ}
    {tables : ℕ → Table} {nowNs : ℤ}

theorem alertsOf_append (id : String) (as bs : List Alert) :
    alertsOf id (as ++ bs) = alertsOf id as ++ alertsOf id bs :=
  List.filter_append _ _

/-- Other events leave the event and its alerts alone. -/
theorem foldl_alertStep_other (nowNs : ℤ) (rows : List (String × CalendarEvent)) :
    ∀ st : Table × List Alert,
    id ∉ Assoc.keys rows → (rows.foldl (alertStep nowNs) st).1.get? id = st.1.get? id ∧
      alertsOf id (rows.foldl (alertStep nowNs) st).2 = alertsOf id st.2 := by
  induction rows with
  | nil => exact fun _ _ => ⟨rfl, rfl⟩
  | cons row rows ih =>
      intro st hid
      simp only [Assoc.keys, List.map_cons, List.mem_cons, not_or] at hid
      obtain ⟨hget, halerts⟩ := ih (alertStep nowNs st row) hid.2
      rw [List.foldl_cons, hget, halerts, alertStep]
      split_ifs
      · exact ⟨rfl, rfl⟩
      · constructor
        · rw [Dict.get?_modify, if_neg hid.1]
        · have hother : alertsOf id [alertFor nowNs row.1 row.2] = [] := by
            simp [alertsOf, alertFor, Ne.symm hid.1]
          rw [alertsOf_append, hother, List.append_nil]

/-- A poll alerts the event and marks it exactly where it sends. -/
theorem checkCalendarAlerts_spec (s : Settings) (nowNs : ℤ) {table : Table}
    (hget : table.get? id = some e) :
    (checkCalendarAlerts s nowNs table).1.get? id =
      some (if sends s nowNs e then markAlerted e.startAt e else e) ∧
      alertsOf id (checkCalendarAlerts s nowNs table).2 = if sends s nowNs e then
        [alertFor nowNs id e] else [] := by
  have hentry : (id, e) ∈ table.entries := (Dict.mem_entries_iff table id e).mpr hget
  have hnodup : (Assoc.keys (getUpcomingEvents s nowNs table)).Nodup :=
    Assoc.nodup_keys_filter table.nodup_keys _
  by_cases hupcoming : (inWindow s nowNs e && isUpcoming s nowNs e) = true
  -- the event comes up once, and the steps before and after it are about other events
  · have hrow : (id, e) ∈ getUpcomingEvents s nowNs table := List.mem_filter.mpr ⟨hentry, hupcoming⟩
    obtain ⟨before, after, hsplit⟩ := List.append_of_mem hrow
    rw [hsplit, Assoc.keys, List.map_append, List.map_cons] at hnodup
    have hmiddle := List.nodup_cons.mp (List.nodup_middle.mp hnodup)
    rw [List.mem_append, not_or] at hmiddle
    obtain ⟨hgetBefore, halertsBefore⟩ := foldl_alertStep_other nowNs before (table, []) hmiddle.1.1
    obtain ⟨hgetAfter, halertsAfter⟩ := foldl_alertStep_other nowNs after
      (alertStep nowNs (before.foldl (alertStep nowNs) (table, [])) (id, e)) hmiddle.1.2
    rw [checkCalendarAlerts, hsplit, List.foldl_append, List.foldl_cons, hgetAfter,
      halertsAfter, alertStep]
    -- an event alerted for this start is left as it is
    cases halready : alreadyAlerted e with
    | true =>
        have hsends : sends s nowNs e = false := by simp [sends, halready]
        rw [if_pos rfl, hgetBefore, halertsBefore, hget, hsends]
        exact ⟨rfl, rfl⟩
    | false =>
        have hsends : sends s nowNs e = true := by simp [sends, halready, hupcoming]
        have hself :
          alertsOf id [alertFor nowNs id e] = [alertFor nowNs id e] := by simp [alertsOf, alertFor]
        rw [if_neg Bool.false_ne_true, Dict.get?_modify, if_pos rfl, hgetBefore, hget,
          alertsOf_append, halertsBefore, hself, hsends]
        exact ⟨rfl, rfl⟩
  -- an event that does not come up is not touched
  · have hsends : sends s nowNs e = false := by simp [sends, Bool.eq_false_iff.mpr hupcoming]
    have hout : id ∉ Assoc.keys (getUpcomingEvents s nowNs table) := by
      intro hmem
      obtain ⟨⟨k, e'⟩, hrow, rfl⟩ := List.mem_map.mp hmem
      obtain ⟨hentry', hkept⟩ := List.mem_filter.mp hrow
      obtain rfl := Option.some.inj (hget.symm.trans ((Dict.mem_entries_iff table k e').mp hentry'))
      exact hupcoming hkept
    obtain ⟨hget', halerts⟩ := foldl_alertStep_other nowNs
      (getUpcomingEvents s nowNs table) (table, []) hout
    rw [checkCalendarAlerts, hget', halerts, hget, hsends]
    exact ⟨rfl, rfl⟩

/-- An event that was marked for its start is already alerted. -/
theorem alreadyAlerted_markAlerted (e : CalendarEvent) :
    alreadyAlerted (markAlerted e.startAt e) = true := by
  have hvalue : metaValue (markAlerted e.startAt e) "alerted_at" = some (.int e.startAt) :=
    Dict.get?_set_self _ _ _
  rw [alreadyAlerted, hvalue]
  exact decide_eq_true rfl

/-! ## Runs of polls -/

/-- The event is not marked from the start, the first poll at which the alert is due fetches it and
finds it due, and no earlier poll does. -/
structure OnTime (s : Settings) (e : CalendarEvent) (lead : ℚ) (polls : ℕ → ℤ) : Prop where
  unmarked : alreadyAlerted e = false
  notEarly : ∀ i, (polls i : ℚ) < e.startAt - lead → inWindow s (polls i) e = true →
    isUpcoming s (polls i) e = false
  inTime : ∀ i, FirstDue e lead polls i → e.startAt ≤ polls i + s.maxLookaheadNs ∧
    isUpcoming s (polls i) e = true

/-- The lead of an alert is never negative. -/
theorem lead_nonneg (h : alertLead s e = some lead) : 0 ≤ lead := by
  unfold alertLead at h
  split at h
  · next minutes _ =>
      split_ifs at h with hn
      obtain rfl := Option.some.inj h
      have hq : (0 : ℚ) ≤ minutes := by exact_mod_cast hn
      positivity
  · next minutes _ =>
      split_ifs at h with hn
      obtain rfl := Option.some.inj h
      positivity
  · obtain rfl := Option.some.inj h
    have hn : 0 ≤ s.defaultLookaheadNs := by
      rw [Settings.defaultLookaheadNs]
      positivity
    exact_mod_cast hn

theorem FirstDue.unique {i j : ℕ} (hi : FirstDue e lead polls i) (hj : FirstDue e lead polls j) :
    i = j := by
  rcases lt_trichotomy i j with hlt | heq | hgt
  · exact absurd hi.1 (not_le.mpr (hj.2 i hlt))
  · exact heq
  · exact absurd hj.1 (not_le.mpr (hi.2 j hgt))

/-- The alert becomes due at some poll. -/
theorem Polling.exists_firstDue (h : Polling s id e lead polls tables) :
    ∃ i, FirstDue e lead polls i := by
  classical
  have hexists : ∃ i, (e.startAt : ℚ) - lead ≤ polls i := by
    obtain ⟨i, hi⟩ := h.unbounded ⌈(e.startAt : ℚ) - lead⌉
    exact ⟨i, (Int.le_ceil _).trans (by exact_mod_cast hi)⟩
  refine ⟨Nat.find hexists, Nat.find_spec hexists, fun j hj => ?_⟩
  exact not_le.mp (Nat.find_min hexists hj)

/-- The first poll at which the alert is due is not past the event by more than the grace. -/
theorem Polling.grace (h : Polling s id e lead polls tables) {i : ℕ}
    (hi : FirstDue e lead polls i) :
    polls i - s.graceNs ≤ e.startAt := by
  have hlead := lead_nonneg h.hasLead
  cases i with
  | zero =>
      rcases h.begins with hbefore | ⟨changed, hpoll, hfuture⟩
      · exact absurd hi.1 (not_le.mpr hbefore)
      · omega
  | succ i =>
      have hprev := hi.2 i (Nat.lt_succ_self i)
      have hlt : (polls i : ℚ) < e.startAt := by linarith
      have hlt' : polls i < e.startAt := by exact_mod_cast hlt
      have hgap := h.gap i
      omega

/-- As long as no poll has sent, the event is as it was. -/
theorem Polling.get?_before (h : Polling s id e lead polls tables) {i : ℕ}
    (hnone : ∀ j < i, sends s (polls j) e = false) : (tables i).get? id = some e := by
  induction i with
  | zero => exact h.stored
  | succ i ih =>
      have hget := ih fun j hj => hnone j (hj.trans (Nat.lt_succ_self i))
      rw [h.unchanged i, (checkCalendarAlerts_spec s _ hget).1, hnone i (Nat.lt_succ_self i)]
      rfl

/-- After the poll that sends, the event stays marked. -/
theorem Polling.get?_after (h : Polling s id e lead polls tables) {i : ℕ}
    (hnone : ∀ j < i, sends s (polls j) e = false) (hsends : sends s (polls i) e = true) (n : ℕ) :
    (tables (i + 1 + n)).get? id = some (markAlerted e.startAt e) := by
  induction n with
  | zero =>
      rw [Nat.add_zero, h.unchanged i, (checkCalendarAlerts_spec s _ (h.get?_before hnone)).1,
        hsends]
      rfl
  | succ n ih =>
      have hmarked : sends s (polls (i + 1 + n)) (markAlerted e.startAt e) = false := by
        rw [sends, alreadyAlerted_markAlerted, Bool.not_true, Bool.and_false]
      rw [← Nat.add_assoc, h.unchanged, (checkCalendarAlerts_spec s _ ih).1, hmarked]
      rfl

/-- Whether a poll sends for the unmarked event. -/
theorem sends_eq_true (hactive : e.isCancelled = false) (hmark : alreadyAlerted e = false)
    (nowNs : ℤ) :
    sends s nowNs e = true ↔
      (nowNs - s.graceNs ≤ e.startAt ∧ e.startAt ≤ nowNs + s.maxLookaheadNs) ∧
        isUpcoming s nowNs e = true := by
  simp [sends, inWindow, hactive, hmark]

/-- The first due poll sends the alert. -/
theorem OnTime.sends_firstDue (h : OnTime s e lead polls)
    (hpolling : Polling s id e lead polls tables) {i : ℕ} (hi : FirstDue e lead polls i) :
    sends s (polls i) e = true := by
  obtain ⟨hupper, hdue⟩ := h.inTime i hi
  exact (sends_eq_true hpolling.active h.unmarked _).mpr ⟨⟨hpolling.grace hi, hupper⟩, hdue⟩

/-- A poll before the window sends nothing. -/
theorem OnTime.not_sends_early (h : OnTime s e lead polls) {j : ℕ}
    (hj : (polls j : ℚ) < e.startAt - lead) :
    sends s (polls j) e = false := by
  rw [sends]
  cases hwindow : inWindow s (polls j) e with
  | false => rfl
  | true => rw [h.notEarly j hj hwindow]; rfl

/-- An event is alerted once and in time exactly where it is unmarked, and fetched and due at the
first poll at or after its alert is due and at no earlier one. -/
theorem alertedOnce_iff (h : Polling s id e lead polls tables) :
    AlertedOnce s id e lead polls tables ↔ OnTime s e lead polls := by
  constructor
  · rintro ⟨i, hfirst, halerts⟩
    -- no poll before the `i`-th has sent
    have hnone : ∀ k, k ≤ i → ∀ j < k, sends s (polls j) e = false := by
      intro k
      induction k with
      | zero => exact fun _ j hj => absurd hj (Nat.not_lt_zero j)
      | succ k ih =>
          intro hk j hj
          have ih := ih (Nat.le_of_succ_le hk)
          rcases Nat.lt_succ_iff_lt_or_eq.mp hj with hlt | rfl
          · exact ih j hlt
          · have hspec := (checkCalendarAlerts_spec s (polls j) (h.get?_before ih)).2
            rw [halerts j, if_neg (Nat.ne_of_lt hk)] at hspec
            by_contra hsends
            rw [if_pos (Bool.not_eq_false _ |>.mp hsends)] at hspec
            cases hspec
    have hspec := (checkCalendarAlerts_spec s (polls i) (h.get?_before (hnone i le_rfl))).2
    rw [halerts i, if_pos rfl] at hspec
    have hsends : sends s (polls i) e = true := by
      by_contra hsends
      rw [if_neg hsends] at hspec
      cases hspec
    have hmark : alreadyAlerted e = false := by
      rw [sends, Bool.and_eq_true, Bool.not_eq_true'] at hsends
      exact hsends.2
    refine ⟨hmark, fun j hj hwindow => ?_, fun j hj => ?_⟩
    · have hlt : j < i := by
        by_contra hle
        have hle' : (polls i : ℚ) ≤ polls j := by exact_mod_cast h.mono (not_lt.mp hle)
        exact absurd hj (not_lt.mpr (hfirst.1.trans hle'))
      have hquiet := hnone i le_rfl j hlt
      rw [sends, hwindow, hmark] at hquiet
      simpa using hquiet
    · obtain rfl := hj.unique hfirst
      obtain ⟨hwindow, hdue⟩ := (sends_eq_true h.active hmark _).mp hsends
      exact ⟨hwindow.2, hdue⟩
  · intro hontime
    obtain ⟨i, hfirst⟩ := h.exists_firstDue
    have hnone : ∀ j < i, sends s (polls j) e = false :=
      fun j hj => hontime.not_sends_early (hfirst.2 j hj)
    have hsends := hontime.sends_firstDue h hfirst
    refine ⟨i, hfirst, fun j => ?_⟩
    rcases lt_trichotomy j i with hlt | rfl | hgt
    · rw [(checkCalendarAlerts_spec s _ (h.get?_before fun k hk => hnone k (hk.trans hlt))).2,
        hnone j hlt, if_neg (Nat.ne_of_lt hlt)]
      rfl
    · rw [(checkCalendarAlerts_spec s _ (h.get?_before hnone)).2, hsends, if_pos rfl, if_pos rfl]
    · obtain ⟨n, rfl⟩ := Nat.exists_eq_add_of_le hgt
      have hmarked : sends s (polls (i.succ + n)) (markAlerted e.startAt e) = false := by
        rw [sends, alreadyAlerted_markAlerted, Bool.not_true, Bool.and_false]
      rw [(checkCalendarAlerts_spec s _ (h.get?_after hnone hsends n)).2, hmarked,
        if_neg (Nat.ne_of_gt hgt)]
      rfl

/-! ## Whole minutes -/

/-- The minutes are not a `float`. -/
def WholeMinutes (e : CalendarEvent) : Prop := ∀ q, metaValue e "alert_minutes" ≠ some (.float q)

/-- Whole minutes are compared exactly. -/
theorem isUpcoming_iff (hwhole : WholeMinutes e) (hlead : alertLead s e = some lead) (nowNs : ℤ) :
    isUpcoming s nowNs e = true ↔ (e.startAt : ℚ) - lead ≤ nowNs := by
  unfold alertLead at hlead
  unfold isUpcoming
  split at hlead
  · next minutes hminutes =>
      split_ifs at hlead with hn
      obtain rfl := Option.some.inj hlead
      simp only [hn, decide_true, Bool.true_and, decide_eq_true_eq, sub_le_iff_le_add]
      exact_mod_cast Iff.rfl
  · next minutes hminutes => exact absurd hminutes (hwhole minutes)
  · next hint hfloat =>
      obtain rfl := Option.some.inj hlead
      rw [decide_eq_true_eq, sub_le_iff_le_add]
      exact_mod_cast Iff.rfl

/-- With whole minutes, the event is on time where it is unmarked and at the first poll at which its
alert is due no further off than the longest look-ahead. -/
theorem onTime_iff (hwhole : WholeMinutes e) (hlead : alertLead s e = some lead) :
    OnTime s e lead polls ↔ alreadyAlerted e = false ∧
      ∀ i, FirstDue e lead polls i → e.startAt ≤ polls i + s.maxLookaheadNs := by
  constructor
  · exact fun h => ⟨h.unmarked, fun i hi => (h.inTime i hi).1⟩
  · rintro ⟨hmark, hupper⟩
    refine ⟨hmark, fun i hi _ => ?_,
      fun i hi => ⟨hupper i hi, (isUpcoming_iff hwhole hlead _).mpr hi.1⟩⟩
    rw [Bool.eq_false_iff, Ne, isUpcoming_iff hwhole hlead]
    exact not_le.mpr hi

/-- A lead within the longest look-ahead is always on time. -/
theorem onTime_of_le (hwhole : WholeMinutes e) (hlead : alertLead s e = some lead)
    (hmark : alreadyAlerted e = false) (hle : lead ≤ s.maxLookaheadNs) : OnTime s e lead polls := by
  refine (onTime_iff hwhole hlead).mpr ⟨hmark, fun i hi => ?_⟩
  have hstart : (e.startAt : ℚ) ≤ polls i + s.maxLookaheadNs := by linarith [hi.1]
  exact_mod_cast hstart

/-! ## A reminder two hours before -/

def tenSeconds : Settings := ⟨10, 10⟩

/-- A poll every ten seconds. -/
def everyTen (i : ℕ) : ℤ := 10000000000 * i

/-- An event after ten thousand seconds. -/
def reminder (minutes : ℤ) : CalendarEvent where
  calendarId := "c"
  userId := "u"
  title := "Review"
  description := none
  location := none
  startAt := 10000000000000
  isCancelled := false
  metaData := some ⟨[("alert_minutes", .int minutes)], by simp [Assoc.keys]⟩

/-- The tables of a run with one event that nobody else changes. -/
def tablesOf (e : CalendarEvent) : ℕ → Table
  | 0 => ⟨[("e", e)], by simp [Assoc.keys]⟩
  | i + 1 => (checkCalendarAlerts tenSeconds (everyTen i) (tablesOf e i)).1

/-- The example polls every ten seconds. -/
theorem polling_reminder {minutes : ℤ} (h : 0 ≤ minutes)
    (hlead : minutes * 60 * 1000000000 < 10000000000000) :
    Polling tenSeconds "e" (reminder minutes) ((minutes * 60 * 1000000000 : ℤ) : ℚ) everyTen
      (tablesOf (reminder minutes)) where
  stored := rfl
  unchanged := fun _ => rfl
  active := rfl
  hasLead := by
    have hvalue : metaValue (reminder minutes) "alert_minutes" = some (.int minutes) := rfl
    simp only [alertLead, hvalue, if_pos h]
    push_cast
    rfl
  mono := by
    intro i j hij
    unfold everyTen
    omega
  unbounded := by
    intro t
    refine ⟨t.toNat, ?_⟩
    unfold everyTen
    omega
  gap := by
    intro i
    have hgrace : tenSeconds.graceNs = 15000000000 := rfl
    rw [hgrace]
    unfold everyTen
    push_cast
    omega
  begins := by
    left
    have hstart : (reminder minutes).startAt = 10000000000000 := rfl
    have hzero : everyTen 0 = 0 := rfl
    rw [hstart, hzero]
    have hq : ((minutes * 60 * 1000000000 : ℤ) : ℚ) <
      (10000000000000 : ℤ) := by exact_mod_cast hlead
    push_cast at hq ⊢
    linarith

/-- Two hours before, the query does not fetch the event yet. -/
theorem twoHours_not_alertedOnce :
    Polling tenSeconds "e" (reminder 120) ((120 * 60 * 1000000000 : ℤ) : ℚ) everyTen
      (tablesOf (reminder 120)) ∧
    ¬ AlertedOnce tenSeconds "e" (reminder 120) ((120 * 60 * 1000000000 : ℤ) : ℚ) everyTen
      (tablesOf (reminder 120)) := by
  have hpolling := @polling_reminder 120 (by decide) (by decide)
  refine ⟨hpolling, ?_⟩
  rintro ⟨i, hfirst, halerts⟩
  have hi : i ≤ 280 := by
    by_contra hlt
    have hearly := hfirst.2 280 (not_le.mp hlt)
    rw [show everyTen 280 = 2800000000000 from rfl,
      show (reminder 120).startAt = 10000000000000 from rfl] at hearly
    norm_num at hearly
  have hnone : ∀ j ≤ 280, sends tenSeconds (everyTen j) (reminder 120) = false := by
    intro j hj
    have hmax : tenSeconds.maxLookaheadNs = 3600000000000 := by decide
    have hwindow : inWindow tenSeconds (everyTen j) (reminder 120) = false := by
      rw [inWindow, hmax, show (reminder 120).startAt = 10000000000000 from rfl,
        Bool.and_eq_false_iff]
      right
      unfold everyTen
      rw [decide_eq_false_iff_not]
      omega
    rw [sends, hwindow]
    rfl
  have hspec := (checkCalendarAlerts_spec tenSeconds (everyTen i)
    (hpolling.get?_before fun j hj => hnone j (hj.le.trans hi))).2
  rw [halerts i, if_pos rfl, hnone i hi] at hspec
  cases hspec

/-- A reminder ten minutes ahead is sent once. -/
theorem alertedOnce_tenMinutes :
    AlertedOnce tenSeconds "e" (reminder 10) ((10 * 60 * 1000000000 : ℤ) : ℚ) everyTen
    (tablesOf (reminder 10)) := by
  have hpolling := @polling_reminder 10 (by decide) (by decide)
  refine (alertedOnce_iff hpolling).mpr (onTime_of_le ?_ hpolling.hasLead rfl ?_)
  · intro q h
    cases h
  · have hmax : tenSeconds.maxLookaheadNs = 3600000000000 := by decide
    rw [hmax]
    norm_num

end OpenWebUI.Calendar
