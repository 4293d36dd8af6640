import OpenWebUI.Chat.HistoryRuns
import OpenWebUI.Delivery.System

/-! # Runs of the parent chat

Results are delivered once in every run that meets the condition. A browser that saves what it
read before a fold brings the folded message back, and the result is delivered again.
-/

namespace OpenWebUI.Delivery

open Py Chat Transition

variable {s : State} {owner : String}

/-! ## Runs that meet the condition -/

/-- At the start no delegation has finished and no turn waits. -/
theorem Sound.initial (h : Initial s) : Sound s := by
  obtain ⟨hsane, hpast, hjobs, hfinished, hstarted⟩ := h
  have hnone : ∀ t, ¬ s.HasTurn t := by
    rintro t (ht | ht)
    · rw [hstarted] at ht
      cases ht
    · rw [hjobs] at ht
      cases ht
  constructor
  case sane => exact hsane
  case current => exact hpast ▸ List.mem_singleton_self _
  case past =>
    intro read hread
    rw [hpast, List.mem_singleton] at hread
    subst hread
    exact ⟨hsane, (Grows.refl _).earlier⟩
  case shown => exact fun t ht => absurd ht (hnone t)
  all_goals
    intro d hd
    rw [hfinished] at hd
    cases hd

/-- One step, by its kind. -/
theorem Sound.step {a : Action} {s' : State} (hs : Sound s) (hmeets : Meets s a)
    (hstep : Step owner a s s') :
    Sound s' := by
  obtain ⟨hdrawn, hstep⟩ := hstep
  cases a with
  | finish d id active now =>
      cases hstep
      exact hs.finish hdrawn hmeets
  | process run =>
      cases hstep
      -- the job has no turn yet, so the count is what it was
      refine hs.jobs (fun t ht => ?_) fun d => ?_
      · rcases ht with ht | ht
        · exact .inl ht
        · rcases List.mem_append.mp ht with ht | ht
          · exact .inr ht
          · cases List.mem_singleton.mp ht
      · unfold State.turnsFor
        simp only [List.countP_append]
        exact Nat.le_refl _
  | query i active =>
      obtain ⟨job', hjob, rfl⟩ := Option.map_eq_some_iff.mp hstep
      exact hs.query hjob
  | fold i permitted timerRun userId assistantId now =>
      -- the fold finds nothing and the job ends, or it stores a turn
      unfold Delivery.step at hstep
      dsimp only at hstep
      split at hstep
      · next run hjob =>
          split at hstep
          · cases hstep
            exact hs.ended hjob rfl
          · next h' t hfold =>
              cases hstep
              cases permitted with
              | true => exact hs.fold hjob hdrawn hmeets hfold
              | false => cases hfold
      · cases hstep
  | start i =>
      unfold Delivery.step at hstep
      dsimp only at hstep
      split at hstep
      · next t hjob =>
          cases hstep
          exact hs.start hjob
      · cases hstep
  | turn user userMessage replies now =>
      obtain ⟨h', hturn, rfl⟩ := Option.map_eq_some_iff.mp hstep
      exact hs.turn hmeets hturn
  | save i =>
      obtain ⟨h', hsave, rfl⟩ := Option.map_eq_some_iff.mp hstep
      exact hs.save hmeets hsave

/-- What one step keeps every run keeps. -/
theorem sound_of_reachable
    (hs : Reachable Initial (fun a s s' => Meets s a ∧ Step owner a s s') s) : Sound s :=
  hs.invariant (fun _ h => .initial h) fun _ _ _ hsound h => hsound.step h.1 h.2

/-- In every run that meets the condition the chat stays well linked, and every result is in one
message and starts one turn at most. -/
theorem results_delivered_once (owner : String) (s : State)
    (hs : Reachable Initial (fun a s s' => Meets s a ∧ Step owner a s s') s) :
    Linked s.history.messages ∧ ∀ d ∈ s.finished, DeliveredOnce s d := by
  have hsound := sound_of_reachable hs
  exact ⟨hsound.sane.linked, fun d hd => hsound.deliveredOnce hd⟩

/-! ## A save of an earlier read -/

def settings : Obj := [("model_id", .str "m")]

def delegated : Background :=
    ⟨"d", "t", "", "c", "1.0s", ⟨"completed", "ok", none⟩, settings, some "a"⟩

def question : Message :=
  [("id", .str "u"), ("parentId", .null), ("childrenIds", .arr []), ("role", .str "user"),
    ("content", .str "hi")]

def answer : Message :=
  [("id", .str "a"), ("parentId", .str "u"), ("childrenIds", .arr []), ("role", .str "assistant"),
   ("content", .str "on it"), ("done", .bool true)]

def answeredChat : History :=
  upsertMessageToHistory (upsertMessageToHistory ⟨∅, none⟩ "u" question 0) "a" answer 0

def begun : State := ⟨answeredChat, [answeredChat], [], [], []⟩

/-- The result waits for a task of the chat to end. -/
def reported : History := insertResult answeredChat delegated "p" true 1

def resultTurn (userId assistantId : String) : ModelTurn :=
  ⟨userId, assistantId, .str "a", .str "m", delegated.text⟩

/-- The waiting result is folded into a turn. -/
def foldedInto (h : History) (userId assistantId : String) (now : ℚ) : History :=
  ⟨storeTurn h.messages (resultTurn userId assistantId) ["p"]
    [("internal", .bool true), ("type", .str "subagent"), ("delegation_id", .str "d"),
      ("subagent_chat_id", .str "c")] now, some assistantId⟩

/-- The result was folded, and its turn started. -/
def settled : State :=
  ⟨foldedInto reported "v" "b" 2, [foldedInto reported "v" "b" 2, reported, answeredChat],
    [.ended], [delegated],
    [resultTurn "v" "b"]⟩

/-- The text of a result begins with its header. -/
theorem text_ne (d : Background) : d.text ≠ "" := by
  intro h
  have hin := header_in_text d
  rw [h] at hin
  exact header_ne_nil _ (List.infix_nil.mp hin)

/-- Folding the result when it is all that waits. -/
theorem fold_waiting {h : History} {m : Message} {userId assistantId : String} {now : ℚ}
    (hpending : pending h.messages = [m]) (hid : m.get "id" = .str "p")
    (hparent : m.get "parentId" = .str "a") (hcontent : m.get "content" = .str delegated.text)
    (hmodel : m.get "model" = .str "m")
    (hmeta : m.get "meta" = .obj [("internal", .bool true), ("type", .str "subagent"),
      ("delegation_id", .str "d"), ("subagent_chat_id", .str "c"), ("status", .str "pending")]) :
    foldPending h settings (fun _ => []) userId assistantId now =
      some (foldedInto h userId assistantId now, resultTurn userId assistantId) := by
  have hmetaOf : metaOf m = [("internal", .bool true), ("type", .str "subagent"),
      ("delegation_id", .str "d"), ("subagent_chat_id", .str "c"), ("status", .str "pending")] := by
    rw [metaOf, hmeta]
    rfl
  have htimer : isTimer m = false := by
    rw [isTimer, hmetaOf]
    rfl
  have hresult : isSubagentResult m = true := by
    rw [isSubagentResult, hmetaOf]
    rfl
  have hor : ∀ x : Json, (Json.str "m").or x = .str "m" := fun _ => rfl
  have hbatch : batch [m] m (.str "m") = [m] := by
    rw [batch, htimer, if_neg Bool.false_ne_true, List.filter_cons_of_pos]
    · rfl
    · rw [hmodel, hor, Json.pyEq_refl, Json.pyEq_refl, hresult]
      rfl
  have hcombined : combinedContent [m] = some delegated.text := by
    unfold combinedContent
    simp [hcontent, text_ne, String.intercalate_singleton]
  have hmetadata : combinedMeta [m] false = [("internal", .bool true), ("type", .str "subagent"),
      ("delegation_id", .str "d"), ("subagent_chat_id", .str "c")] := by
    simp only [combinedMeta, metaIds, List.map_cons, List.map_nil, hmetaOf]
    rfl
  have hids : ([m].mapM fun m => (Obj.get m "id").asStr) = some ["p"] := by
    rw [List.mapM_cons, hid]
    rfl
  unfold foldPending
  rw [hpending]
  simp only [hmodel, hor, hbatch, hcombined, htimer, hmetadata, hmetaOf, hids, hid, hparent]
  rfl

/-- A fold that the transaction allows is a step. -/
theorem step_fold {i : ℕ} {run : Obj} {timerRun : Json → Obj} {userId assistantId : String}
    {now : ℚ} {h : History} {t : ModelTurn} (hjob : s.jobs[i]? = some (.folding run))
    (hfold : foldPending s.history run timerRun userId assistantId now = some (h, t)) :
    step owner s (.fold i true timerRun userId assistantId now) =
      some ((s.store h).setJob i (.starting t)) := by
  simp [Delivery.step, hjob, hfold]

theorem delegated_nulFree : delegated.NulFree where
  text := nulFree_of_bytes (by decide +kernel)
  delegationId := by decide
  chatId := by decide
  modelId := .str (by decide)

/-- The run starts from a conversation with one question. -/
theorem begun_initial : Initial begun := by
  have hempty : Sane (∅ : Messages) := by
    refine ⟨wellLinked_empty.linked, fun k m hm => ?_, fun k m hm => ?_⟩ <;> cases hm
  have hquestion : Sane (upsertMessageToHistory ⟨∅, none⟩ "u" question 0).messages := by
    refine (Sane.upsert_new (h := ⟨∅, none⟩) hempty 0 (by decide) (by decide)
      (by decide) ?_ rfl rfl (.inl rfl)).1
    refine .of_members ["id", "parentId", "childrenIds", "role", "content"] rfl (by decide) ?_
    simp only [question, List.forall_mem_cons]
    exact ⟨.str (by decide), .null, .arr fun x hx => (by cases hx), .str (by decide),
      .str (by decide),
      fun e he => by cases he⟩
  have hanswer : Sane answeredChat.messages := by
    refine (hquestion.upsert_new 0 (by decide) (by decide) (by decide) ?_ rfl rfl
      (.inr ⟨"u", by decide, rfl⟩)).1
    refine .of_members ["id", "parentId", "childrenIds", "role", "content",
      "done"] rfl (by decide) ?_
    simp only [answer, List.forall_mem_cons]
    exact ⟨.str (by decide), .str (by decide), .arr fun x hx => (by cases hx), .str (by decide),
      .str (by decide),
      .bool true, fun e he => by cases he⟩
  exact ⟨hanswer, rfl, rfl, rfl, rfl⟩

/-- The steps of the run, one after the other. -/
theorem settled_reachable :
    Reachable Initial (fun a s s' => Meets s a ∧ Step "o" a s s') settled := by
  have hunquoted : Unquoted delegated answeredChat.messages := by
    have hentries :
      ∀ e ∈ answeredChat.messages.entries, ¬ In (header "d") (textOf e.2) := by decide +kernel
    intro k m hm _
    exact hentries (k, m) ((Dict.mem_entries_iff _ _ _).mpr hm)
  have h₀ : Reachable Initial (fun a s s' => Meets s a ∧ Step "o" a s s') begun :=
    .start begun_initial
  have h₁ : Reachable Initial (fun a s s' => Meets s a ∧ Step "o" a s s')
      ⟨reported, [reported, answeredChat], [.inserted settings], [delegated], []⟩ := by
    refine h₀.next (a := .finish delegated "p" true 1)
      ⟨⟨delegated_nulFree, fun p hp => ?_, hunquoted, ?_⟩, ?_, rfl⟩
    · cases hp
      decide
    · intro e he
      cases he
    · exact ⟨⟨by decide, by decide, by decide +kernel⟩, by decide⟩
  have hmodel : ∀ m, runModel settings (fun _ => []) m = .str "m" := by
    intro m
    unfold runModel
    dsimp only
    split_ifs <;> rfl
  have h₂ := h₁.next (a := Action.query 0 false) ⟨trivial, trivial, rfl⟩
  have h₃ := h₂.next (a := Action.query 0 false) ⟨trivial, trivial, rfl⟩
  have h₄ := h₃.next (a := Action.query 0 false) ⟨trivial, trivial, rfl⟩
  have h₅ := h₄.next (a := Action.fold 0 true (fun _ => []) "v" "b" 2) ⟨fun run hrun m => by
      cases hrun
      exact hmodel m ▸ .str (by decide),
    ⟨⟨by decide, by decide, by decide +kernel⟩,
      ⟨by decide, by decide, by decide +kernel⟩, by decide⟩,
    step_fold rfl (fold_waiting rfl rfl rfl rfl rfl rfl)⟩
  exact h₅.next (a := Action.start 0) ⟨trivial, trivial, rfl⟩

theorem results_delivered_settled :
    Linked settled.history.messages ∧ ∀ d ∈ settled.finished, DeliveredOnce settled d :=
  results_delivered_once "o" settled settled_reachable

/-- The chat after a browser saved what it read before the fold. -/
def restored : History :=
  let merged := (mergedHistory ⟨"o", ⟨some settled.history, []⟩, .null, .null, 0⟩ reported.raw).getD
    answeredChat
  ⟨merged.messages, merged.currentId.map sanitizeText⟩

/-- The save was followed by another fold. -/
def redelivered : State :=
  ⟨foldedInto restored "w" "c" 3,
    [foldedInto restored "w" "c" 3, restored, settled.history, reported, answeredChat],
    [.ended, .ended], [delegated], [resultTurn "w" "c", resultTurn "v" "b"]⟩

/-- The browser's save brings the folded result back, and it is folded again. -/
theorem redelivered_reachable : Reachable Initial (Step "o") redelivered := by
  have hsound := sound_of_reachable settled_reachable
  have hread : Sane reported.messages := (hsound.past reported (.tail _ (.head _))).1
  have hsave : saveHistory "o" settled.history reported = some restored :=
    saveHistory_of_merged hsound.sane.clean hread.clean rfl
  have h₀ : Reachable Initial (Step "o") settled := settled_reachable.mono fun _ _ _ h => h.2
  have h₁ : Reachable Initial (Step "o") (settled.store restored) := by
    refine h₀.next (a := Action.save 1) ⟨trivial, ?_⟩
    show (saveHistory "o" settled.history reported).map settled.store = _
    rw [hsave, Option.map_some]
  have h₂ := h₁.next (a := Action.process settings) ⟨trivial, rfl⟩
  have h₃ := h₂.next (a := Action.query 1 false) ⟨trivial, rfl⟩
  have h₄ := h₃.next (a := Action.query 1 false) ⟨trivial, rfl⟩
  have h₅ := h₄.next (a := Action.fold 1 true (fun _ => []) "w" "c" 3)
    ⟨⟨⟨by decide, by decide, by decide +kernel⟩,
      ⟨by decide, by decide, by decide +kernel⟩, by decide⟩,
      step_fold rfl (fold_waiting rfl rfl rfl rfl rfl rfl)⟩
  exact h₅.next (a := Action.start 1) ⟨trivial, rfl⟩

/-- Without the condition a result is in two messages and starts two turns. -/
theorem stale_save_redelivers : ∃ s, Reachable Initial (Step "o") s ∧ ∃ d ∈ s.finished,
    (¬ ∃! k, ∃ m, s.history.messages.get? k = some m ∧ m.get "role" = .str "user" ∧
      In d.text (textOf m)) ∧
      ¬ (s.started.countP fun t => In d.text t.content) ≤ 1 := by
  refine ⟨redelivered, redelivered_reachable, delegated, List.mem_singleton_self _, ?_, ?_⟩
  · rintro ⟨k, -, honly⟩
    have hfirst := honly "v" ⟨_, rfl, rfl, .refl _⟩
    have hsecond := honly "w" ⟨_, rfl, rfl, .refl _⟩
    exact absurd (hfirst.trans hsecond.symm) (by decide)
  · have hcount : (redelivered.started.countP fun t => In delegated.text t.content) = 2 := by
      refine List.countP_eq_length.mpr fun t ht => decide_eq_true ?_
      rcases List.mem_cons.mp ht with rfl | ht
      · exact .refl _
      · obtain rfl := List.mem_singleton.mp ht
        exact .refl _
    omega

end OpenWebUI.Delivery
