import OpenWebUI.Chat.Reads
import OpenWebUI.Lib.Keyed
import OpenWebUI.Delivery.Results

/-! # Delivery of results

One parent chat with everyone who writes to it: background delegations that end, workers that
process waiting results, user turns, and browsers that save a history they read before.
Transactions, `has_active_tasks` and model starts are single steps. Tasks of the chat start and
end at any time, so a query has either answer. The lock of a worker only rules out runs and is
left out.
-/

namespace OpenWebUI.Delivery

open Py Chat Transition

/-! ## The chat and its writers -/

/-- Where a call stands: `run_background` after its transaction, or
`process_pending_internal_messages` with the settings it was called with. -/
inductive Job
  | inserted (run : Obj)
  | waiting (run : Obj)
  | checking (run : Obj)
  | folding (run : Obj)
  | starting (turn : ModelTurn)
  | ended
deriving DecidableEq

/-- `has_active_tasks` was answered. -/
def Job.query (active : Bool) : Job → Option Job
  | .inserted run => some (if active then .ended else .waiting run)
  | .waiting run => some (if active then .waiting run else .checking run)
  | .checking run => some (if active then .ended else .folding run)
  | _ => none

/-- `past` holds every history that was stored, the latest first; `finished` and `started` the
delegations and model turns so far. -/
structure State where
  history : History
  past : List History
  jobs : List Job
  finished : List Background
  started : List ModelTurn

inductive Action
  | finish (d : Background) (id : String) (active : Bool) (now : ℚ)
  | process (run : Obj)
  | query (job : ℕ) (active : Bool)
  | fold (job : ℕ) (permitted : Bool) (timerRun : Json → Obj)
      (userId assistantId : String) (now : ℚ)
  | start (job : ℕ)
  | turn (user : TurnUser) (userMessage : Obj) (replies : List TurnReply) (now : ℚ)
  | save (read : ℕ)

def State.store (s : State) (h : History) : State := { s with history := h, past := h :: s.past }

def State.setJob (s : State) (i : ℕ) (job : Job) : State := { s with jobs := s.jobs.set i job }

/-- One atomic step; `none` when the writer is not there, or its transaction raises. -/
def step (owner : String) (s : State) : Action → Option State
  | .finish d id active now =>
      some { s.store (insertResult s.history d id active now) with
        jobs := s.jobs ++ [.inserted d.run], finished := d :: s.finished }
  | .process run => some { s with jobs := s.jobs ++ [.waiting run] }
  | .query i active => (s.jobs[i]?.bind (Job.query active)).map (s.setJob i)
  | .fold i permitted timerRun userId assistantId now =>
      match s.jobs[i]? with
      | some (.folding run) =>
          match (if permitted then foldPending s.history run timerRun userId assistantId now
            else none) with
          | none => some (s.setJob i .ended)
          | some (h, t) => some ((s.store h).setJob i (.starting t))
      | _ => none
  | .start i =>
      match s.jobs[i]? with
      | some (.starting t) => some { s.setJob i .ended with started := t :: s.started }
      | _ => none
  | .turn user userMessage replies now =>
      (insertChatTurn owner user s.history userMessage replies now).map s.store
  | .save i => (s.past[i]?.bind (saveHistory owner s.history)).map s.store

/-- A well-linked chat before any delegation has ended. -/
structure Initial (s : State) : Prop where
  sane : Sane s.history.messages
  past : s.past = [s.history]
  jobs : s.jobs = []
  finished : s.finished = []
  started : s.started = []

/-- An id that was never used. -/
def State.Fresh (s : State) (id : String) : Prop :=
  id ≠ "" ∧ Chat.NulFree id ∧ ∀ h ∈ s.past, id ∉ h.messages

/-- What `uuid4` gives: new ids, of one line. -/
def Drawn (s : State) : Action → Prop
  | .finish d id _ _ => s.Fresh id ∧ '\n' ∉ d.delegationId.toList
  | .fold _ _ _ userId assistantId _ => s.Fresh userId ∧ s.Fresh assistantId ∧ userId ≠ assistantId
  | _ => True

def Step (owner : String) (a : Action) (s s' : State) : Prop := Drawn s a ∧ step owner s a = some s'

/-! ## Runs that deliver -/

/-- No text of a user has the first line of the result in it. -/
def Unquoted (d : Background) (ms : Messages) : Prop :=
  ∀ k m, ms.get? k = some m → m.get "role" = .str "user" → ¬ In (header d.delegationId) (textOf m)

/-- The condition under which results are delivered once. A save carries no message that was
removed; a turn posts new ids or stored ones, and a reply that is prepared again has no replies
of its own; a delegation comes from a stored message; no text quotes the first line of another
result; and nothing has null characters. -/
def Meets (s : State) : Action → Prop
  | .finish d _ _ _ =>
      d.NulFree ∧ (∀ p, d.parentMessageId = some p → p ∈ s.history.messages) ∧
        Unquoted d s.history.messages ∧ ∀ e ∈ s.finished, ¬ In (header e.delegationId) d.text
  | .fold i _ timerRun _ _ _ =>
      ∀ run, s.jobs[i]? = some (.folding run) → ∀ m, Clean (runModel run timerRun m)
  | .turn user userMessage replies _ =>
      Postable user s.history.messages userMessage replies ∧
        (∀ k, (Obj.get userMessage "id" = .str k ∨ .str k ∈ replies.map TurnReply.messageId) →
          k ∈ s.history.messages ∨ ∀ h ∈ s.past, k ∉ h.messages) ∧
        ((∃ k ∈ s.history.messages, Obj.get userMessage "id" = .str k) ∨
          ∀ d ∈ s.finished, ¬ In (header d.delegationId) (textOf userMessage))
  | .save i => ∀ read, s.past[i]? = some read → ∀ k ∈ read.messages, k ∈ s.history.messages
  | _ => True

/-- The result is in exactly one message of a user, and at most one turn was started for it. -/
structure DeliveredOnce (s : State) (d : Background) : Prop where
  stored : ∃! k, ∃ m, s.history.messages.get? k = some m ∧ m.get "role" = .str "user" ∧
    In d.text (textOf m)
  started : (s.started.countP fun t => In d.text t.content) ≤ 1

/-- A result can be found by its header. -/
theorem header_in_text (d : Background) : In (header d.delegationId) d.text :=
  in_intercalate List.mem_cons_self

/-- No header is empty, so it is found only where it stands. -/
theorem header_ne_nil (id : String) : (header id).toList ≠ [] := by
  unfold header
  rw [String.toList_append, String.toList_append]
  simp

/-- A header stays within one line if the id does. -/
theorem header_line {id : String} (h : '\n' ∉ id.toList) : '\n' ∉ (header id).toList := by
  unfold header
  rw [String.toList_append, String.toList_append, List.mem_append, List.mem_append]
  rintro ((hin | hin) | hin)
  · exact absurd hin (by decide)
  · exact h hin
  · exact absurd hin (by decide)

/-! ### Carriers and turns -/

/-- The message that carries a result, and no other has its first line. -/
structure Carries (ms : Messages) (d : Background) (k : String) : Prop where
  text : ∃ m, ms.get? k = some m ∧ m.get "role" = .str "user" ∧ In d.text (textOf m)
  only : ∀ l m, ms.get? l = some m → m.get "role" = .str "user" →
    In (header d.delegationId) (textOf m) → l = k

/-- The user message of a turn is stored, with its reply. -/
structure Shown (ms : Messages) (t : ModelTurn) : Prop where
  user : ∃ m, ms.get? t.userMessageId = some m ∧ m.get "role" = .str "user" ∧ textOf m = t.content
  reply : ∃ m, ms.get? t.assistantMessageId = some m ∧ m.get "role" = .str "assistant"
  link : ms.parentOf t.assistantMessageId = some t.userMessageId

variable {ms ms' : Messages} {d : Background} {k : String} {t t' : ModelTurn} {ids : List String}

/-- A message that carries a result carries it while the history grows, and no new one does. -/
theorem Carries.grows (h : Carries ms d k) (hgrows : Grows ms ms')
    (hnew : ∀ l m, ms'.get? l = some m → l ∉ ms → m.get "role" = .str "user" →
      ¬ In (header d.delegationId) (textOf m)) : Carries ms' d k := by
  constructor
  · obtain ⟨m, hm, hrole, hin⟩ := h.text
    obtain ⟨m', hm', hfrozen⟩ := hgrows k m hm
    exact ⟨m', hm', hfrozen.role.trans hrole, hfrozen.text hrole ▸ hin⟩
  · intro l m' hm' hrole hin
    by_cases hl : l ∈ ms
    · obtain ⟨m, hm⟩ := (Dict.mem_iff_exists _ _).mp hl
      obtain ⟨n, hn, hfrozen⟩ := hgrows l m hm
      rw [hm'] at hn
      cases hn
      have hrole' := hfrozen.role.symm.trans hrole
      exact h.only l m hm hrole' (hfrozen.text hrole' ▸ hin)
    · exact absurd hin (hnew l m' hm' hl hrole)

/-- A turn that is shown stays shown. -/
theorem Shown.grows (h : Shown ms t) (hl : Linked ms) (hgrows : Grows ms ms') : Shown ms' t := by
  obtain ⟨m, hm, hrole, htext⟩ := h.user
  obtain ⟨m', hm', hfrozen⟩ := hgrows _ m hm
  obtain ⟨r, hr, hreply⟩ := h.reply
  obtain ⟨r', hr', hfrozen'⟩ := hgrows _ r hr
  refine ⟨⟨m', hm', hfrozen.role.trans hrole, (hfrozen.text hrole).trans htext⟩,
    ⟨r', hr', hfrozen'.role.trans hreply⟩, ?_⟩
  rw [hgrows.parentOf hl (Dict.mem_of_get? hr)]
  exact h.link

/-- The result of a turn is carried by the user message of the turn. -/
theorem Shown.carrier (h : Shown ms t) (hc : Carries ms d k)
    (hin : In (header d.delegationId) t.content) :
    t.userMessageId = k := by
  obtain ⟨m, hm, hrole, htext⟩ := h.user
  exact hc.only _ m hm hrole (htext ▸ hin)

/-- A turn is shown as soon as it is stored. -/
theorem Folded.shown (h : Folded ms ms' t ids) (hnew : t.assistantMessageId ∉ ms) :
    Shown ms' t := by
  refine ⟨h.user, ?_, h.reply⟩
  obtain ⟨m, hm⟩ := (Dict.mem_iff_exists _ _).mp (Messages.mem_of_parentOf h.reply).1
  rcases h.new _ m hm hnew with heq | ⟨-, hrole⟩
  · -- no message is its own parent
    have hself : ms'.parentOf t.userMessageId = some t.userMessageId := heq ▸ h.reply
    exact absurd (.single hself) (h.sane.linked.acyclic t.userMessageId)
  · exact ⟨m, hm, hrole⟩

/-- A fold takes no message away that has a reply, and no reply. -/
theorem Folded.keeps (h : Folded ms ms' t' ids) (ht : Shown ms t) : Shown ms' t := by
  obtain ⟨m, hm, hrole, htext⟩ := ht.user
  obtain ⟨r, hr, hreply⟩ := ht.reply
  have huser : t.userMessageId ∉ ids := by
    intro hin
    obtain ⟨-, -, -, hleaf⟩ := h.batch _ hin
    exact hleaf _ ht.link
  have hassistant : t.assistantMessageId ∉ ids := by
    intro hin
    obtain ⟨n, hn, hrole', -⟩ := h.batch _ hin
    rw [hr] at hn
    cases hn
    rw [hreply] at hrole'
    exact absurd hrole' (by decide)
  obtain ⟨m', hm', hfrozen⟩ := h.kept _ m hm fun hin => absurd hin huser
  obtain ⟨r', hr', hfrozen'⟩ := h.kept _ r hr fun hin => absurd hin hassistant
  refine ⟨⟨m', hm', hfrozen.role.trans hrole, (hfrozen.text hrole).trans htext⟩,
    ⟨r', hr', hfrozen'.role.trans hreply⟩, ?_⟩
  have hlink := ht.link
  rw [Messages.parentOf_of_get? hr, Messages.stored_eq_some] at hlink
  rw [Messages.parentOf_of_get? hr', hfrozen'.parent, hlink.1]
  exact Messages.stored_str (Dict.mem_of_get? hm')

/-- The carrier of a result is kept, or its text goes into the turn. -/
theorem Folded.carries (h : Folded ms ms' t ids) (hc : Carries ms d k)
    (hline : '\n' ∉ d.delegationId.toList) :
    (Carries ms' d k ∧ ¬ In (header d.delegationId) t.content) ∨
      (Carries ms' d t.userMessageId ∧ In (header d.delegationId) t.content ∧ k ∈ ids) := by
  obtain ⟨m, hm, hrole, htext⟩ := hc.text
  -- what has the first line afterwards is the old carrier or the message of the turn
  have honly : ∀ l m', ms'.get? l = some m' → m'.get "role" = .str "user" →
      In (header d.delegationId) (textOf m') → l = t.userMessageId ∨ (l = k ∧ k ∉ ids) := by
    intro l m' hm' hrole' hin
    by_cases hlt : l = t.userMessageId
    · exact .inl hlt
    · right
      have hl : l ∈ ms := by
        by_contra hl
        rcases h.new l m' hm' hl with heq | ⟨-, hassistant⟩
        · exact hlt heq
        · rw [hassistant] at hrole'
          exact absurd hrole' (by decide)
      have hlids : l ∉ ids := fun hmem => h.gone l hmem hlt (Dict.mem_of_get? hm')
      obtain ⟨n, hn⟩ := (Dict.mem_iff_exists _ _).mp hl
      obtain ⟨n', hn', hfrozen⟩ := h.kept l n hn fun hmem => absurd hmem hlids
      rw [hm'] at hn'
      cases hn'
      have hroleOld := hfrozen.role.symm.trans hrole'
      obtain rfl := hc.only l n hn hroleOld (hfrozen.text hroleOld ▸ hin)
      exact ⟨rfl, hlids⟩
  obtain ⟨u, hu, huser, hcontent⟩ := h.user
  by_cases hin : In (header d.delegationId) t.content
  · right
    obtain ⟨r, hr, n, hn, hinr⟩ := h.tokens _ (header_ne_nil _) (header_line hline) hin
    have hrk : r = k := by
      obtain ⟨n', hn', hroler, -⟩ := h.batch r hr
      rw [hn] at hn'
      cases hn'
      exact hc.only r n hn hroler hinr
    subst hrk
    refine ⟨⟨⟨u, hu, huser, ?_⟩, fun l m' hm' hrole' hin' => ?_⟩, hin, hr⟩
    · rw [hcontent]
      exact htext.trans (h.texts r hr m hm)
    · rcases honly l m' hm' hrole' hin' with heq | ⟨-, hnot⟩
      · exact heq
      · exact absurd hr hnot
  · left
    have hk : k ∉ ids := fun hk => hin ((header_in_text d).trans (htext.trans (h.texts k hk m hm)))
    obtain ⟨m', hm', hfrozen⟩ := h.kept k m hm fun hmem => absurd hmem hk
    refine ⟨⟨⟨m', hm', hfrozen.role.trans hrole, hfrozen.text hrole ▸ htext⟩,
      fun l n hn hrole' hin' => ?_⟩, hin⟩
    rcases honly l n hn hrole' hin' with rfl | ⟨heq, -⟩
    · rw [hu] at hn
      cases hn
      exact absurd (hcontent ▸ hin') hin
    · exact heq

/-! ### The invariant -/

/-- The turn a job is about to start. -/
def Job.turn : Job → Option ModelTurn
  | .starting t => some t
  | _ => none

def about (d : Background) (t : ModelTurn) : Bool := decide (In (header d.delegationId) t.content)

/-- The turns that were started for a result, or are about to be. -/
def State.turnsFor (s : State) (d : Background) : ℕ :=
  s.started.countP (about d) + s.jobs.countP fun j => j.turn.any (about d)

/-- A turn that was started, or is about to be. -/
def State.HasTurn (s : State) (t : ModelTurn) : Prop := t ∈ s.started ∨ .starting t ∈ s.jobs

structure Sound (s : State) : Prop where
  sane : Sane s.history.messages
  current : s.history ∈ s.past
  past : ∀ read ∈ s.past, Sane read.messages ∧ Earlier read.messages s.history.messages
  line : ∀ d ∈ s.finished, '\n' ∉ d.delegationId.toList
  carried : ∀ d ∈ s.finished, ∃ k, Carries s.history.messages d k
  shown : ∀ t, s.HasTurn t → Shown s.history.messages t
  once : ∀ d ∈ s.finished, s.turnsFor d ≤ 1

/-- Without a turn about it a delegation is counted in none. -/
theorem turnsFor_eq_zero {s : State} {d : Background} (h : ∀ t, s.HasTurn t → about d t = false) :
    s.turnsFor d = 0 := by
  have hstarted : s.started.countP (about d) = 0 := by
    rw [List.countP_eq_zero]
    intro t ht
    rw [h t (.inl ht)]
    exact Bool.false_ne_true
  have hjobs : (s.jobs.countP fun j => j.turn.any (about d)) = 0 := by
    rw [List.countP_eq_zero]
    intro j hj
    cases j with
    | starting t =>
        show ¬ about d t = true
        rw [h t (.inr hj)]
        exact Bool.false_ne_true
    | _ => exact Bool.false_ne_true
  unfold State.turnsFor
  omega

/-- In a sound state every finished delegation is in one message, and one turn was started for it at
most. -/
theorem Sound.deliveredOnce {s : State} (hs : Sound s) {d : Background} (hd : d ∈ s.finished) :
    DeliveredOnce s d := by
  obtain ⟨k, hk⟩ := hs.carried d hd
  constructor
  · refine ⟨k, hk.text, ?_⟩
    rintro l ⟨m, hm, hrole, hin⟩
    exact hk.only l m hm hrole ((header_in_text d).trans hin)
  · have hle : (s.started.countP fun t => In d.text t.content) ≤ s.started.countP (about d) := by
      refine List.countP_mono_left fun t _ hin => ?_
      exact decide_eq_true ((header_in_text d).trans (of_decide_eq_true hin))
    have := hs.once d hd
    unfold State.turnsFor at this
    omega

/-! ### Steps -/

variable {s : State} {owner : String}

/-- A transaction that keeps every message, adds new ids, and quotes no result. -/
theorem Sound.store (hs : Sound s) {h' : History} (hsane : Sane h'.messages)
    (hgrows : Grows s.history.messages h'.messages)
    (hfresh : ∀ k ∈ h'.messages, k ∉ s.history.messages → ∀ read ∈ s.past, k ∉ read.messages)
    (hquiet : ∀ d ∈ s.finished, ∀ l m, h'.messages.get? l = some m → l ∉ s.history.messages →
      m.get "role" = .str "user" → ¬ In (header d.delegationId) (textOf m)) :
    Sound (s.store h') := by
  constructor
  case sane => exact hsane
  case current => exact List.mem_cons_self
  case past =>
    intro read hread
    rcases List.mem_cons.mp hread with rfl | hread
    · exact ⟨hsane, (Grows.refl _).earlier⟩
    · refine ⟨(hs.past read hread).1,
        (hs.past read hread).2.trans hgrows.earlier fun k hk hnew => ?_⟩
      exact hfresh k hk hnew read hread
  case line => exact hs.line
  case carried =>
    intro d hd
    obtain ⟨k, hk⟩ := hs.carried d hd
    exact ⟨k, hk.grows hgrows (hquiet d hd)⟩
  case shown => exact fun t ht => (hs.shown t ht).grows hs.sane.linked hgrows
  case once => exact hs.once

/-- Calls that go on without a new turn. -/
theorem Sound.jobs (hs : Sound s) {jobs : List Job} {started : List ModelTurn}
    (hturns : ∀ t, State.HasTurn { s with jobs, started } t → s.HasTurn t)
    (hcount : ∀ d, State.turnsFor { s with jobs, started } d ≤ s.turnsFor d) :
    Sound { s with jobs, started } := by
  constructor
  case sane => exact hs.sane
  case current => exact hs.current
  case past => exact hs.past
  case line => exact hs.line
  case carried => exact hs.carried
  case shown => exact fun t ht => hs.shown t (hturns t ht)
  case once => exact fun d hd => (hcount d).trans (hs.once d hd)

/-- No turn is started for a result whose first line no user message has. -/
theorem Sound.unquoted (hs : Sound s) {d : Background} (hd : Unquoted d s.history.messages) :
    s.turnsFor d = 0 := by
  refine turnsFor_eq_zero fun t ht => ?_
  obtain ⟨m, hm, hrole, htext⟩ := (hs.shown t ht).user
  rw [about, decide_eq_false_iff_not, ← htext]
  exact hd _ m hm hrole

/-- Changing one job moves the count by what its turn is about. -/
theorem setJob_turnsFor {i : ℕ} {job : Job} (hjob : s.jobs[i]? = some job) (job' : Job)
    (d : Background) :
    (s.setJob i job').turnsFor d + (job.turn.any (about d)).toNat =
      s.turnsFor d + (job'.turn.any (about d)).toNat := by
  have := Keyed.countP_set hjob job' fun j => j.turn.any (about d)
  unfold State.turnsFor State.setJob
  dsimp only
  omega

/-- A job that is changed brings at most its own turn. -/
theorem setJob_hasTurn {i : ℕ} {job' : Job} {t : ModelTurn} (h : (s.setJob i job').HasTurn t) :
    s.HasTurn t ∨ job' = .starting t := by
  rcases h with hstarted | hjob
  · exact .inl (.inl hstarted)
  · rcases List.mem_or_eq_of_mem_set hjob with hjob | heq
    · exact .inl (.inr hjob)
    · exact .inr heq.symm

/-- A job that still asks has no turn. -/
theorem Job.query_turn {active : Bool} {job job' : Job} (h : job.query active = some job') :
    job.turn = none ∧ job'.turn = none := by
  cases job <;> cases active <;> cases h <;> exact ⟨rfl, rfl⟩

/-- Asking changes no message. -/
theorem Sound.query (hs : Sound s) {i : ℕ} {active : Bool} {job' : Job}
    (h : s.jobs[i]?.bind (Job.query active) = some job') : Sound (s.setJob i job') := by
  obtain ⟨job, hjob, hquery⟩ := Option.bind_eq_some_iff.mp h
  obtain ⟨hnone, hnone'⟩ := Job.query_turn hquery
  refine hs.jobs (fun t ht => ?_) fun d => ?_
  · rcases setJob_hasTurn ht with ht | rfl
    · exact ht
    · cases hnone'
  · have := setJob_turnsFor hjob job' d
    rw [hnone, hnone'] at this
    exact (Nat.add_right_cancel this).le

/-- A job that ends without a turn takes nothing with it. -/
theorem Sound.ended (hs : Sound s) {i : ℕ} {job : Job} (hjob : s.jobs[i]? = some job)
    (hnone : job.turn = none) :
    Sound (s.setJob i .ended) := by
  refine hs.jobs (fun t ht => ?_) fun d => ?_
  · rcases setJob_hasTurn ht with ht | heq
    · exact ht
    · cases heq
  · have := setJob_turnsFor hjob .ended d
    rw [hnone] at this
    exact (Nat.add_right_cancel this).le

/-- A turn that starts is counted among those started. -/
theorem Sound.start (hs : Sound s) {i : ℕ} {t : ModelTurn}
    (hjob : s.jobs[i]? = some (.starting t)) :
    Sound { s.setJob i .ended with started := t :: s.started } := by
  refine hs.jobs (fun t' ht => ?_) fun d => ?_
  · rcases ht with hstarted | hjob'
    · rcases List.mem_cons.mp hstarted with rfl | hstarted
      · exact .inr (List.mem_of_getElem? hjob)
      · exact .inl hstarted
    · rcases List.mem_or_eq_of_mem_set hjob' with hjob' | heq
      · exact .inr hjob'
      · cases heq
  · -- the turn is counted among the started ones now
    have hset := setJob_turnsFor hjob .ended d
    have hturn : Option.any (about d) (Job.turn (.starting t)) = about d t := rfl
    rw [hturn, show Option.any (about d) (Job.turn .ended) = false from rfl] at hset
    have hone :
      (if about d t = true then 1 else 0) = (about d t).toNat := by cases about d t <;> rfl
    unfold State.turnsFor State.setJob at hset ⊢
    simp only [List.countP_cons, hone, Bool.toNat_false] at hset ⊢
    omega

/-- A result is stored as one pending message that carries it. -/
theorem Sound.finish (hs : Sound s) {d : Background} {id : String} {active : Bool} {now : ℚ}
    (hdrawn : Drawn s (.finish d id active now)) (hmeets : Meets s (.finish d id active now)) :
    Sound { s.store (insertResult s.history d id active now) with
      jobs := s.jobs ++ [.inserted d.run], finished := d :: s.finished } := by
  obtain ⟨⟨hne, hnul, hfresh⟩, hline⟩ := hdrawn
  obtain ⟨hd, hparent, hunquoted, hothers⟩ := hmeets
  obtain ⟨hsane, hgrows, hmem, m, hm, hrole, htext⟩ :=
    insertResult_spec hs.sane hd (hfresh _ hs.current) hne
    hnul active now hparent
  -- the only new message is the result
  have hnew : ∀ l n, (insertResult s.history d id active now).messages.get? l = some n →
      l ∉ s.history.messages → l = id ∧ textOf n = d.text := by
    intro l n hn hl
    obtain rfl := ((hmem l).mp (Dict.mem_of_get? hn)).resolve_right hl
    rw [hm] at hn
    cases hn
    exact ⟨rfl, htext⟩
  have hstore : Sound (s.store (insertResult s.history d id active now)) := by
    refine hs.store hsane hgrows (fun k hk hnew => ?_) fun e he l n hn hl _ => ?_
    · obtain rfl := ((hmem k).mp hk).resolve_right hnew
      exact hfresh
    · rw [(hnew l n hn hl).2]
      exact hothers e he
  -- the job that inserts has no turn
  have hcount :
    ∀ e : Background, ((s.jobs ++ [Job.inserted d.run]).countP fun j : Job =>
    j.turn.any (about e)) =
      s.jobs.countP fun j => j.turn.any (about e) := by
    intro e
    rw [List.countP_append]
    rfl
  have hturns : ∀ t, t ∈ s.started ∨ .starting t ∈ s.jobs ++ [.inserted d.run] → s.HasTurn t := by
    rintro t (ht | ht)
    · exact .inl ht
    · rcases List.mem_append.mp ht with ht | ht
      · exact .inr ht
      · cases List.mem_singleton.mp ht
  constructor
  case sane => exact hsane
  case current => exact hstore.current
  case past => exact hstore.past
  case line =>
    intro e he
    rcases List.mem_cons.mp he with rfl | he
    · exact hline
    · exact hs.line e he
  case carried =>
    intro e he
    rcases List.mem_cons.mp he with rfl | he
    -- nobody quoted the new result before it was stored
    · refine ⟨id, ⟨m, hm, hrole, htext ▸ .refl _⟩, fun l n hn hrole' hin => ?_⟩
      by_cases hl : l ∈ s.history.messages
      · obtain ⟨old, hold⟩ := (Dict.mem_iff_exists _ _).mp hl
        have hfrozen := hgrows.earlier l old n hold hn
        have hroleOld := hfrozen.role.symm.trans hrole'
        exact absurd (hfrozen.text hroleOld ▸ hin) (hunquoted l old hold hroleOld)
      · exact (hnew l n hn hl).1
    · exact hstore.carried e he
  case shown => exact fun t ht => hstore.shown t (hturns t ht)
  case once =>
    intro e he
    unfold State.turnsFor
    dsimp only
    rw [hcount]
    rcases List.mem_cons.mp he with rfl | he
    · have := hs.unquoted hunquoted
      unfold State.turnsFor at this
      exact this.le.trans (Nat.zero_le 1)
    · exact hs.once e he

/-- Turns of the user add messages of their own. -/
theorem Sound.turn (hs : Sound s) {user : TurnUser} {userMessage : Obj} {replies : List TurnReply}
    {now : ℚ} {h' : History} (hmeets : Meets s (.turn user userMessage replies now))
    (hturn : insertChatTurn owner user s.history userMessage replies now = some h') :
    Sound (s.store h') := by
  obtain ⟨hpostable, hids, hquiet⟩ := hmeets
  obtain ⟨hsane, hgrows, hnew⟩ := insertChatTurn_spec hs.sane hpostable hturn
  refine hs.store hsane hgrows (fun k hk hknew => ?_) fun d hd l m hm hl hrole => ?_
  · obtain ⟨m, hm⟩ := (Dict.mem_iff_exists _ _).mp hk
    exact (hids k (hnew k m hm hknew).1).resolve_left hknew
  · obtain ⟨hid, htext⟩ := (hnew l m hm hl).2 hrole
    rcases hquiet with ⟨k, hk, heq⟩ | hquiet
    · rw [hid] at heq
      cases heq
      exact absurd hk hl
    · rw [htext]
      exact hquiet d hd

/-- A saved history that still has every result keeps them. -/
theorem Sound.save (hs : Sound s) {i : ℕ} {h' : History} (hmeets : Meets s (.save i))
    (hsave : s.past[i]?.bind (saveHistory owner s.history) = some h') : Sound (s.store h') := by
  obtain ⟨read, hread, hsave⟩ := Option.bind_eq_some_iff.mp hsave
  obtain ⟨hsaneRead, hearlier⟩ := hs.past read (List.mem_of_getElem? hread)
  obtain ⟨hsane, hgrows, hmem⟩ :=
    saveHistory_spec hs.sane hsaneRead hearlier (hmeets read hread) hsave
  refine hs.store hsane hgrows (fun k hk hnew => ?_) fun d _ l m hm hl _ => ?_
  · exact absurd (hmem k hk) hnew
  · exact absurd (hmem l (Dict.mem_of_get? hm)) hl

/-- A fold takes the results of its batch into one turn. -/
theorem Sound.fold (hs : Sound s) {i : ℕ} {permitted : Bool} {timerRun : Json → Obj}
    {userId assistantId : String} {now : ℚ} {run : Obj} {h' : History} {t : ModelTurn}
    (hjob : s.jobs[i]? = some (.folding run))
    (hdrawn : Drawn s (.fold i permitted timerRun userId assistantId now))
    (hmeets : Meets s (.fold i permitted timerRun userId assistantId now))
    (hfold : foldPending s.history run timerRun userId assistantId now = some (h', t)) :
    Sound ((s.store h').setJob i (.starting t)) := by
  obtain ⟨⟨hune, hunul, hufresh⟩, ⟨hane, hanul, hafresh⟩, hne⟩ := hdrawn
  obtain ⟨rfl, hu, ids, hf⟩ := foldPending_spec hs.sane
    ⟨⟨hufresh _ hs.current, hune, hunul⟩, ⟨hafresh _ hs.current, hane, hanul⟩, hne⟩
      (hmeets run hjob) hfold
  -- a message of the batch is gone or used again, and every other one is kept
  have hearlier : Earlier s.history.messages h'.messages := by
    intro k m m' hm hm'
    obtain ⟨n, hn, hfrozen⟩ := hf.kept k m hm fun hk => by
      by_contra hku
      exact hf.gone k hk hku (Dict.mem_of_get? hm')
    rw [hm'] at hn
    cases hn
    exact hfrozen
  constructor
  case sane => exact hf.sane
  case current => exact List.mem_cons_self
  case past =>
    intro read hread
    rcases List.mem_cons.mp hread with rfl | hread
    · exact ⟨hf.sane, (Grows.refl _).earlier⟩
    -- a message that is new to this history is new to the earlier reads of it
    · refine ⟨(hs.past read hread).1, (hs.past read hread).2.trans hearlier fun k hk hnew => ?_⟩
      obtain ⟨m, hm⟩ := (Dict.mem_iff_exists _ _).mp hk
      rcases hf.new k m hm hnew with heq | ⟨rfl, -⟩
      · rcases hu with hu | hu
        · exact (heq.trans hu) ▸ hufresh read hread
        · exact absurd (heq ▸ hu) hnew
      · exact hafresh read hread
  case line => exact hs.line
  case carried =>
    intro d hd
    obtain ⟨k, hk⟩ := hs.carried d hd
    -- a result is carried by its message, or by the user message it was folded into
    rcases hf.carries hk (hs.line d hd) with ⟨hk', -⟩ | ⟨hk', -⟩
    · exact ⟨k, hk'⟩
    · exact ⟨t.userMessageId, hk'⟩
  case shown =>
    intro t' ht'
    rcases setJob_hasTurn ht' with ht' | heq
    · exact hf.keeps (hs.shown t' ht')
    · cases heq
      exact hf.shown (hafresh _ hs.current)
  case once =>
    intro d hd
    -- the fold gives this job its turn, which counts for what it took in
    have hcount := setJob_turnsFor (s := s.store h') hjob (.starting t) d
    rw [show Option.any (about d) (Job.turn (.folding run)) = false from rfl,
      show Option.any (about d) (Job.turn (.starting t)) = about d t from rfl] at hcount
    obtain ⟨k, hk⟩ := hs.carried d hd
    rcases hf.carries hk (hs.line d hd) with ⟨-, hout⟩ | ⟨-, hin, hkids⟩
    · rw [about, decide_eq_false hout] at hcount
      exact hcount.le.trans (hs.once d hd)
    · -- the carrier had no reply, so no turn was started before
      have hzero : s.turnsFor d = 0 := by
        refine turnsFor_eq_zero fun t' ht' => ?_
        rw [about, decide_eq_false_iff_not]
        intro hin'
        have hshown := hs.shown t' ht'
        obtain ⟨-, -, -, hleaf⟩ := hf.batch k hkids
        exact hleaf _ (hshown.carrier hk hin' ▸ hshown.link)
      have hstore : (s.store h').turnsFor d = s.turnsFor d := rfl
      rw [about, decide_eq_true hin, hstore, hzero] at hcount
      exact hcount.le

end OpenWebUI.Delivery
