import OpenWebUI.Lib.Keyed
import OpenWebUI.Tasks.Registry

/-! # What the registry holds when it is quiet

Registrations only add and everything else only removes, and a removal is of a task that
ended or was asked to stop. A task that ended is gone for good once its cleanup has run
after its registration.
-/

namespace OpenWebUI.Tasks

open Transition Keyed

variable {s s' : State} {t : TaskId} {ttl : ℕ} {c d : Command} {r : Redis}

/-! ## Commands -/

def Command.task : Command → TaskId
  | .set t | .hset t _ | .sadd _ t | .delete t | .hdel t | .srem _ t => t

def Command.removes : Command → Bool
  | .delete _ | .hdel _ | .srem _ _ => true
  | _ => false

/-- What an adding command added is there. -/
def Command.done (r : Redis) : Command → Prop
  | .set t => r.keys t
  | .hset t _ => (r.hash t).isSome
  | .sadd item t => t ∈ r.items item
  | _ => True

/-- What a removing command removed from the hash or a set is not there. -/
def Command.undone (r : Redis) : Command → Prop
  | .hdel t => r.hash t = none
  | .srem item t => t ∉ r.items item
  | _ => True

/-- The removal is of what the other command adds to the hash or a set. -/
def Command.undoes : Command → Command → Prop
  | .hdel t, .hset u _ => t = u
  | .srem item t, .sadd item' u => item = item' ∧ t = u
  | _, _ => False

/-- A command only undoes one of its own task. -/
theorem Command.task_of_undoes (h : c.undoes d) : c.task = d.task := by
  cases c <;> cases d <;> first | exact h | exact h.2 | exact h.elim

theorem mem_run {item : String} (h : t ∈ (c.run r).items item) :
    t ∈ r.items item ∨ c = .sadd item t := by
  cases c with
  | sadd item' u =>
      by_cases hi : item = item'
      · subst hi
        simp only [Command.run, Function.update_self] at h
        split_ifs at h
        · exact .inl h
        · rcases List.mem_append.mp h with h | h
          · exact .inl h
          · exact .inr (by rw [List.mem_singleton.mp h])
      · simp only [Command.run, Function.update_of_ne hi] at h
        exact .inl h
  | srem item' u =>
      by_cases hi : item = item'
      · subst hi
        simp only [Command.run, Function.update_self] at h
        exact .inl (List.mem_of_mem_filter h)
      · simp only [Command.run, Function.update_of_ne hi] at h
        exact .inl h
  | _ => exact .inl h

theorem keys_run_of_ne (h : c.task ≠ t) : (c.run r).keys t = r.keys t := by
  cases c with
  | set u => exact Function.update_of_ne (Ne.symm h) _ _
  | delete u => exact Function.update_of_ne (Ne.symm h) _ _
  | _ => rfl

theorem keys_run_of_adds (hc : c.removes = false) (h : r.keys t) : (c.run r).keys t := by
  cases c with
  | set u =>
      by_cases hu : t = u
      · subst hu
        exact Function.update_self _ _ _
      · exact (Function.update_of_ne hu _ _).trans h
  | delete u => cases hc
  | _ => exact h

theorem mem_run_of_ne {item : String} (h : c.task ≠ t) :
    t ∈ (c.run r).items item ↔ t ∈ r.items item := by
  have hne : t ≠ c.task := Ne.symm h
  cases c with
  | sadd item' u =>
      by_cases hi : item = item'
      · subst hi
        simp only [Command.run, Function.update_self]
        split_ifs
        · exact Iff.rfl
        · rw [List.mem_append, List.mem_singleton]
          exact or_iff_left hne
      · simp only [Command.run, Function.update_of_ne hi]
  | srem item' u =>
      by_cases hi : item = item'
      · subst hi
        simp only [Command.run, Function.update_self, List.mem_filter, decide_eq_true_eq]
        exact and_iff_left hne
      · simp only [Command.run, Function.update_of_ne hi]
  | _ => exact Iff.rfl

theorem hash_run_of_ne (h : c.task ≠ t) : (c.run r).hash t = r.hash t := by
  cases c with
  | hset u item => exact Function.update_of_ne (Ne.symm h) _ _
  | hdel u => exact Function.update_of_ne (Ne.symm h) _ _
  | _ => rfl

theorem Command.done_run_of_ne (h : c.task ≠ d.task) (hd : d.done r) : d.done (c.run r) := by
  cases d with
  | set t => exact (keys_run_of_ne h).trans hd
  | hset t item =>
      have heq : (c.run r).hash t = r.hash t := hash_run_of_ne h
      show ((c.run r).hash t).isSome
      rw [heq]
      exact hd
  | sadd item t => exact (mem_run_of_ne h).mpr hd
  | _ => trivial

/-- An addition leaves what is there. -/
theorem Command.done_run_of_adds (hc : c.removes = false) (hd : d.done r) : d.done (c.run r) := by
  cases d with
  | set t => exact keys_run_of_adds hc hd
  | hset t item =>
      cases c with
      | hset u item' =>
          by_cases hu : t = u
          · subst hu
            simp [Command.done, Command.run]
          · simp only [Command.done, Command.run, Function.update_of_ne hu]
            exact hd
      | hdel u => cases hc
      | _ => exact hd
  | sadd item t =>
      cases c with
      | sadd item' u =>
          by_cases hi : item = item'
          · subst hi
            simp only [Command.done, Command.run, Function.update_self]
            split_ifs
            · exact hd
            · exact List.mem_append_left _ hd
          · simp only [Command.done, Command.run, Function.update_of_ne hi]
            exact hd
      | srem item' u => cases hc
      | _ => exact hd
  | _ => trivial

/-- A command that adds has taken effect once it has run. -/
theorem Command.done_run_self (hc : c.removes = false) : c.done (c.run r) := by
  cases c with
  | set t => exact Function.update_self _ _ _
  | hset t item => simp [Command.done, Command.run]
  | sadd item t =>
      simp only [Command.done, Command.run, Function.update_self]
      split_ifs with h
      · exact h
      · exact List.mem_append_right _ (List.mem_singleton_self t)
  | _ => cases hc

/-- What a command removes is gone once it has run. -/
theorem Command.undone_run_self : c.undone (c.run r) := by
  cases c with
  | hdel t => exact Function.update_self _ _ _
  | srem item t => simp [Command.undone, Command.run]
  | _ => trivial

/-- What was removed comes back with the command that adds it only. -/
theorem Command.undone_run (h : ¬ c.undoes d) (hc : c.undone r) : c.undone (d.run r) := by
  cases c with
  | hdel t =>
      cases d with
      | hset u item => exact (Function.update_of_ne h _ _).trans hc
      | hdel u =>
          by_cases hu : t = u
          · subst hu
            exact Function.update_self _ _ _
          · exact (Function.update_of_ne hu _ _).trans hc
      | _ => exact hc
  | srem item t =>
      intro hmem
      rcases mem_run hmem with hmem | rfl
      · exact hc hmem
      · exact h ⟨rfl, rfl⟩
  | _ => trivial

/-- The commands of `redis_save_task` add, all for the one task. -/
theorem task_of_mem_save {item : Option String} (h : c ∈ saveCommands t item) :
    c.task = t ∧ c.removes = false := by
  rcases List.mem_append.mp h with h | h
  · rcases List.mem_cons.mp h with rfl | h
    · exact ⟨rfl, rfl⟩
    · rw [List.mem_singleton.mp h]
      exact ⟨rfl, rfl⟩
  · obtain ⟨i, -, rfl⟩ := List.mem_map.mp h
    exact ⟨rfl, rfl⟩

/-- The commands of `redis_cleanup_task` remove, all for the one task. -/
theorem task_of_mem_cleanup {item : Option String} (h : c ∈ cleanupCommands t item) :
    c.task = t ∧ c.removes := by
  rcases List.mem_append.mp h with h | h
  · rcases List.mem_cons.mp h with rfl | h
    · exact ⟨rfl, rfl⟩
    · rw [List.mem_singleton.mp h]
      exact ⟨rfl, rfl⟩
  · obtain ⟨i, -, rfl⟩ := List.mem_map.mp h
    exact ⟨rfl, rfl⟩

/-! ## The invariant -/

/-- The task has ended, or somebody asked to stop it. -/
def Unwanted (s : State) (t : TaskId) : Prop :=
  s.asked t ∨ ∃ task : Task, s.tasks[t]? = some task ∧ task.running = false

/-- An operation removes unwanted tasks only. -/
def Op.Sound (s : State) : Op → Prop
  | .lookup t | .publish t _ => s.asked t
  | .members _ | .heartbeat _ => True
  | .probe _ todo _ dead =>
    (∀ t ∈ todo, Unwanted s t ∨ (t < s.tasks.length ∧ s.redis.keys t)) ∧ ∀ t ∈ dead, Unwanted s t
  | .clean rest _ => ∀ c ∈ rest, c.removes ∧ Unwanted s c.task

structure Sound (s : State) : Prop where
  members : ∀ item t, t ∈ s.redis.items item → ∃ task : Task, s.tasks[t]? = some task ∧
    task.item = some item
  saving : ∀ (t : TaskId) (task : Task), s.tasks[t]? = some task →
    task.saving <:+ saveCommands t task.item
  cleaning : ∀ (t : TaskId) (task : Task), s.tasks[t]? = some task →
    task.cleaning <:+ cleanupCommands t task.item ∧ (task.running → task.cleaning = [])
  listed : ∀ (t : TaskId) (task : Task), s.tasks[t]? = some task → task.running → task.listed
  keyed : ∀ item t, t ∈ s.redis.items item → ¬ Unwanted s t → s.redis.keys t
  kept : ∀ (t : TaskId) (task : Task), s.tasks[t]? = some task → ¬ Unwanted s t →
    ∀ c ∈ saveCommands t task.item, c ∈ task.saving ∨ c.done s.redis
  ops : ∀ op ∈ s.ops, op.Sound s

/-- The empty registry is sound. -/
theorem sound_initial (h : Initial s) : Sound s := by
  obtain ⟨htasks, hops, -, -, -, hitems⟩ := h
  constructor <;> simp [htasks, hops, hitems]

/-- An operation stays sound while tasks are only added, ended or asked to stop. -/
theorem Op.Sound.mono {op : Op} (h : op.Sound s) (hlength : s.tasks.length ≤ s'.tasks.length)
    (hunwanted : ∀ t, Unwanted s t → Unwanted s' t) (hasked : ∀ t, s.asked t → s'.asked t)
    (hkeys : ∀ t, s.redis.keys t → s'.redis.keys t ∨ Unwanted s' t) : op.Sound s' := by
  cases op with
  | lookup t => exact hasked t h
  | publish t item => exact hasked t h
  | members item => exact trivial
  | heartbeat todo => exact trivial
  | probe item todo active dead =>
      refine ⟨fun t ht => ?_, fun t ht => hunwanted t (h.2 t ht)⟩
      rcases h.1 t ht with hun | ⟨hlt, hkey⟩
      · exact .inl (hunwanted t hun)
      · rcases hkeys t hkey with hkey | hun
        · exact .inr ⟨Nat.lt_of_lt_of_le hlt hlength, hkey⟩
        · exact .inl hun
  | clean rest answer => exact fun c hc => ⟨(h c hc).1, hunwanted _ (h c hc).2⟩

/-- A removal of an unwanted task. -/
theorem Sound.remove (h : Sound s) (hc : c.removes) (hunwanted : Unwanted s c.task) :
    Sound { s with redis := c.run s.redis } := by
  have hmem : ∀ {item t}, t ∈ (c.run s.redis).items item → t ∈ s.redis.items item := by
    intro item t ht
    refine (mem_run ht).resolve_right ?_
    rintro rfl
    cases hc
  have hne : ∀ {t}, ¬ Unwanted s t → c.task ≠ t := by
    rintro t hnot rfl
    exact hnot hunwanted
  constructor
  case members => exact fun item t ht => h.members item t (hmem ht)
  case saving => exact h.saving
  case cleaning => exact h.cleaning
  case listed => exact h.listed
  case keyed =>
    intro item t ht hnot
    exact (keys_run_of_ne (hne hnot)).trans (h.keyed item t (hmem ht) hnot)
  case kept =>
    intro t task htask hnot d hd
    rcases h.kept t task htask hnot d hd with hsaving | hdone
    · exact .inl hsaving
    · refine .inr (Command.done_run_of_ne ?_ hdone)
      rw [(task_of_mem_save hd).1]
      exact hne hnot
  case ops =>
    intro op hop
    refine (h.ops op hop).mono (Nat.le_refl _) (fun _ => id) (fun _ => id) fun t hkey => ?_
    by_cases ht : c.task = t
    · exact .inr (ht ▸ hunwanted)
    · exact .inl ((keys_run_of_ne ht).trans hkey)

/-- The next command of a registration is an addition of the task; the set comes last. -/
theorem Sound.head_saving (h : Sound s) {task : Task} (htask : s.tasks[t]? = some task)
    (hhead : task.saving.head? = some c) :
    c ∈ saveCommands t task.item ∧
      (∀ item, c = .sadd item t → task.item = some item ∧ .set t ∉ task.saving) := by
  have hsuffix := h.saving t task htask
  refine ⟨hsuffix.subset (List.mem_of_mem_head? hhead), ?_⟩
  rintro item rfl
  obtain ⟨rest, hrest⟩ : ∃ rest, task.saving = .sadd item t :: rest :=
    ⟨_, (List.eq_cons_of_mem_head? hhead)⟩
  rw [hrest] at hsuffix ⊢
  unfold saveCommands at hsuffix
  cases hitem : task.item with
  | none =>
      rw [hitem] at hsuffix
      have := hsuffix.subset List.mem_cons_self
      simp at this
  | some i =>
      rw [hitem] at hsuffix
      have hlast : (.sadd item t :: rest : List Command) <:+ [.sadd i t] := by
        simpa [List.suffix_cons_iff] using hsuffix
      have hcons : (.sadd item t :: rest : List Command) = [.sadd i t] := by
        rcases List.suffix_cons_iff.mp hlast with heq | hnil
        · exact heq
        · simp at hnil
      cases hcons
      simp

/-- A task that is not wanted stays so, whatever changes in Redis or in another task. -/
theorem Unwanted.modify (h : Unwanted s t) (r : Redis) (u : TaskId) {f : Task → Task}
    (hf : ∀ task, task.running = false → (f task).running = false) :
    Unwanted { s with redis := r, tasks := s.tasks.modify u f } t := by
  rcases h with hasked | ⟨task, htask, hended⟩
  · exact .inl hasked
  · refine .inr ⟨_, modify_of htask, ?_⟩
    split_ifs
    · exact hf task hended
    · exact hended

/-- The next command of a registration keeps the invariant. -/
theorem Sound.register (h : Sound s) {task : Task} (htask : s.tasks[t]? = some task)
    (hhead : task.saving.head? = some c) :
    Sound { s with redis := c.run s.redis, tasks := s.tasks.modify t Task.saved } := by
  obtain ⟨hmem, hlast⟩ := h.head_saving htask hhead
  obtain ⟨hct, hadds⟩ := task_of_mem_save hmem
  have hcons : task.saving = c :: task.saving.tail := List.eq_cons_of_mem_head? hhead
  have hun : ∀ u, Unwanted s u →
      Unwanted { s with redis := c.run s.redis, tasks := s.tasks.modify t Task.saved } u :=
    fun u hu => hu.modify _ _ fun _ => id
  constructor
  case members =>
    intro item u hu
    rcases mem_run hu with hu | rfl
    · obtain ⟨old, hold, hitem⟩ := h.members item u hu
      refine ⟨_, modify_of hold, ?_⟩
      split_ifs <;> exact hitem
    -- the item of the task whose command this is
    · obtain rfl : u = t := hct
      refine ⟨_, modify_of htask, ?_⟩
      rw [if_pos rfl]
      exact (hlast item rfl).1
  case saving =>
    intro u new hnew
    rcases of_modify hnew with ⟨-, hold⟩ | ⟨rfl, old, hold, rfl⟩
    · exact h.saving u new hold
    · exact (List.tail_suffix _).trans (h.saving t old hold)
  case cleaning =>
    intro u new hnew
    rcases of_modify hnew with ⟨-, hold⟩ | ⟨rfl, old, hold, rfl⟩
    · exact h.cleaning u new hold
    · exact h.cleaning t old hold
  case listed =>
    intro u new hnew
    rcases of_modify hnew with ⟨-, hold⟩ | ⟨rfl, old, hold, rfl⟩
    · exact h.listed u new hold
    · exact h.listed t old hold
  case keyed =>
    intro item u hu hnot
    rcases mem_run hu with hu | rfl
    · exact keys_run_of_adds hadds (h.keyed item u hu fun hu' => hnot (hun u hu'))
    -- the command that adds the member comes last
    · -- the key was set earlier in the pipeline
      obtain rfl : u = t := hct
      have hset : (.set u : Command) ∈ saveCommands u task.item :=
        List.mem_append_left _ List.mem_cons_self
      rcases h.kept u task htask (fun hu' => hnot (hun u hu')) _ hset with hsaving | hdone
      · exact absurd hsaving (hlast item rfl).2
      · exact keys_run_of_adds hadds hdone
  case kept =>
    intro u new hnew hnot d hd
    have hnot' : ¬ Unwanted s u := fun hu' => hnot (hun u hu')
    rcases of_modify hnew with ⟨-, hold⟩ | ⟨rfl, old, hold, rfl⟩
    · rcases h.kept u new hold hnot' d hd with hsaving | hdone
      · exact .inl hsaving
      · exact .inr (Command.done_run_of_adds hadds hdone)
    · obtain rfl : task = old := Option.some.inj (htask.symm.trans hold)
      rcases h.kept t task htask hnot' d hd with hsaving | hdone
      · rw [hcons] at hsaving
        rcases List.mem_cons.mp hsaving with rfl | hrest
        -- this very command
        · exact .inr (Command.done_run_self hadds)
        · exact .inl hrest
      · exact .inr (Command.done_run_of_adds hadds hdone)
  case ops =>
    intro op hop
    refine (h.ops op hop).mono ?_ hun (fun _ => id) fun u hkey => .inl (keys_run_of_adds hadds hkey)
    exact Nat.le_of_eq (List.length_modify _ _ _).symm

/-- A change of one task that keeps its registration and the rules for its cleanup. -/
theorem Sound.modify (h : Sound s) (t : TaskId) (f : Task → Task)
    (hitem : ∀ task, (f task).item = task.item) (hsaving : ∀ task, (f task).saving = task.saving)
    (hended : ∀ task, task.running = false → (f task).running = false)
    (hf : ∀ task : Task, s.tasks[t]? = some task →
      (f task).cleaning <:+ cleanupCommands t task.item ∧
      ((f task).running → (f task).cleaning = []) ∧ ((f task).running → (f task).listed)) :
    Sound { s with tasks := s.tasks.modify t f } := by
  have hun : ∀ u, Unwanted s u → Unwanted { s with tasks := s.tasks.modify t f } u :=
    fun u hu => hu.modify s.redis t hended
  constructor
  case members =>
    intro item u hu
    -- only the task `t` changes, and keeps its item
    obtain ⟨old, hold, hitem'⟩ := h.members item u hu
    refine ⟨_, modify_of hold, ?_⟩
    split_ifs
    · exact (hitem old).trans hitem'
    · exact hitem'
  case saving =>
    intro u new hnew
    rcases of_modify hnew with ⟨-, hold⟩ | ⟨rfl, old, hold, rfl⟩
    · exact h.saving u new hold
    · rw [hsaving, hitem]
      exact h.saving t old hold
  case cleaning =>
    intro u new hnew
    rcases of_modify hnew with ⟨-, hold⟩ | ⟨rfl, old, hold, rfl⟩
    · exact h.cleaning u new hold
    · rw [hitem]
      exact ⟨(hf old hold).1, (hf old hold).2.1⟩
  case listed =>
    intro u new hnew
    rcases of_modify hnew with ⟨-, hold⟩ | ⟨rfl, old, hold, rfl⟩
    · exact h.listed u new hold
    · exact (hf old hold).2.2
  case keyed => exact fun item u hu hnot => h.keyed item u hu fun hu' => hnot (hun u hu')
  case kept =>
    intro u new hnew hnot d hd
    have hnot' : ¬ Unwanted s u := fun hu' => hnot (hun u hu')
    rcases of_modify hnew with ⟨-, hold⟩ | ⟨rfl, old, hold, rfl⟩
    · exact h.kept u new hold hnot' d hd
    · rw [hitem] at hd
      rw [hsaving]
      exact h.kept t old hold hnot' d hd
  case ops =>
    intro op hop
    refine (h.ops op hop).mono ?_ hun (fun _ => id) fun _ => .inl
    exact Nat.le_of_eq (List.length_modify _ _ _).symm

/-- A new task keeps the invariant. -/
theorem Sound.create (h : Sound s) (item : Option String) :
    Sound { s with tasks := s.tasks ++ [newTask s.tasks.length item] } := by
  have hold : ∀ {u : TaskId} {task : Task}, s.tasks[u]? = some task →
      (s.tasks ++ [newTask s.tasks.length item])[u]? = some task := by
    intro u task htask
    rw [List.getElem?_append_left (List.getElem?_eq_some_iff.mp htask).1]
    exact htask
  have hun : ∀ u, Unwanted s u →
      Unwanted { s with tasks := s.tasks ++ [newTask s.tasks.length item] } u := by
    rintro u (hasked | ⟨task, htask, hended⟩)
    · exact .inl hasked
    · exact .inr ⟨task, hold htask, hended⟩
  constructor
  case members =>
    -- the old tasks keep their ids
    intro i u hu
    obtain ⟨task, htask, hitem⟩ := h.members i u hu
    exact ⟨task, hold htask, hitem⟩
  case saving =>
    intro u new hnew
    rcases of_snoc hnew with hnew | ⟨rfl, rfl⟩
    · exact h.saving u new hnew
    -- the new task has run none of its commands
    · exact List.suffix_refl _
  case cleaning =>
    intro u new hnew
    rcases of_snoc hnew with hnew | ⟨rfl, rfl⟩
    · exact h.cleaning u new hnew
    · exact ⟨List.nil_suffix, fun _ => rfl⟩
  case listed =>
    intro u new hnew
    rcases of_snoc hnew with hnew | ⟨rfl, rfl⟩
    · exact h.listed u new hnew
    · exact fun _ => rfl
  case keyed => exact fun i u hu hnot => h.keyed i u hu fun hu' => hnot (hun u hu')
  case kept =>
    intro u new hnew hnot d hd
    rcases of_snoc hnew with hnew | ⟨rfl, rfl⟩
    · exact h.kept u new hnew (fun hu' => hnot (hun u hu')) d hd
    · exact .inl hd
  case ops =>
    intro op hop
    refine (h.ops op hop).mono ?_ hun (fun _ => id) fun _ => .inl
    rw [List.length_append]
    exact Nat.le_add_right _ _

/-- Any operations that are sound may stand in for the present ones. -/
theorem Sound.setOps (h : Sound s) {ops : List Op} (hops : ∀ op ∈ ops, op.Sound s) :
    Sound { s with ops := ops } :=
  ⟨h.members, h.saving, h.cleaning, h.listed, h.keyed, h.kept, hops⟩

/-- A request to stop a task keeps the invariant. -/
theorem Sound.ask (h : Sound s) (t : TaskId) :
    Sound { s with asked := Function.update s.asked t true, ops := s.ops ++ [.lookup t] } := by
  have hasked : ∀ u, s.asked u → Function.update s.asked t true u := by
    intro u hu
    by_cases hut : u = t
    · subst hut
      exact Function.update_self _ _ _
    · exact (Function.update_of_ne hut _ _).trans hu
  have hun : ∀ u, Unwanted s u →
      Unwanted { s with asked := Function.update s.asked t true, ops := s.ops ++ [.lookup t] } u :=
    fun u hu => hu.imp (hasked u) id
  constructor
  case members => exact h.members
  case saving => exact h.saving
  case cleaning => exact h.cleaning
  case listed => exact h.listed
  case keyed => exact fun i u hu hnot => h.keyed i u hu fun hu' => hnot (hun u hu')
  case kept => exact fun u task htask hnot => h.kept u task htask fun hu' => hnot (hun u hu')
  case ops =>
    intro op hop
    rcases List.mem_append.mp hop with hop | hop
    · exact (h.ops op hop).mono (Nat.le_refl _) hun hasked fun _ => .inl
    · rw [List.mem_singleton.mp hop]
      exact Function.update_self _ _ _

/-! ## Steps -/

/-- What follows a probe is as sound as the probe. -/
theorem sound_probed {item : String} {todo active dead : List TaskId}
    (h : (Op.probe item todo active dead).Sound s) :
    (Tasks.probed item todo active dead).Sound s := by
  unfold Tasks.probed
  split_ifs
  · intro c hc
    obtain ⟨t, ht, hc⟩ := List.mem_flatMap.mp hc
    obtain ⟨rfl, hremoves⟩ := task_of_mem_cleanup hc
    exact ⟨hremoves, h.2 _ ht⟩
  · exact h

/-- The next command of an operation, as far as Redis stays as it is. -/
theorem sound_command (h : Sound s) {op : Op} (hop : op.Sound s) :
    (op.command ttl s.redis).2.Sound s := by
  cases op with
  | lookup t => exact hop
  | publish t item =>
      intro c hc
      obtain ⟨rfl, hremoves⟩ := task_of_mem_cleanup hc
      exact ⟨hremoves, .inl hop⟩
  | members item =>
      rw [Op.command]
      split_ifs
      · exact fun c hc => absurd hc List.not_mem_nil
      · refine ⟨fun t ht => ?_, fun t ht => absurd ht List.not_mem_nil⟩
        by_cases hun : Unwanted s t
        · exact .inl hun
        · obtain ⟨task, htask, -⟩ := h.members item t ht
          exact .inr ⟨(List.getElem?_eq_some_iff.mp htask).1, h.keyed item t ht hun⟩
  | probe item todo active dead =>
      cases todo with
      | nil => exact sound_probed hop
      | cons t todo =>
          have htodo := fun u hu => hop.1 u (List.mem_cons_of_mem t hu)
          rw [Op.command]
          split_ifs with hkey
          · exact sound_probed ⟨htodo, hop.2⟩
          · refine sound_probed ⟨htodo, fun u hu => ?_⟩
            rcases List.mem_append.mp hu with hu | hu
            · exact hop.2 u hu
            · -- a wanted task would have its key
              obtain rfl := List.mem_singleton.mp hu
              exact (hop.1 u List.mem_cons_self).resolve_right fun hu => hkey hu.2
  | clean rest answer =>
      cases rest with
      | nil => exact hop
      | cons c rest => exact fun d hd => hop d (List.mem_cons_of_mem _ hd)
  | heartbeat todo => exact trivial

/-- An operation changes Redis by a removal of an unwanted task, if at all. -/
theorem redis_of_sound {op : Op} (hop : op.Sound s) (ttl : ℕ) :
    (op.command ttl s.redis).1 = s.redis ∨
      ∃ c : Command, c.removes ∧ Unwanted s c.task ∧ (op.command ttl s.redis).1 = c.run s.redis ∧
        ∃ rest answer, (op.command ttl s.redis).2 = .clean rest answer := by
  cases op with
  | clean rest answer =>
      cases rest with
      | nil => exact .inl rfl
      | cons c rest =>
          have hc := hop c List.mem_cons_self
          exact .inr ⟨c, hc.1, hc.2, rfl, rest, answer, rfl⟩
  | members item =>
      rw [Op.command]
      split_ifs <;> exact .inl rfl
  | probe item todo active dead =>
      cases todo with
      | nil => exact .inl rfl
      | cons t todo =>
          rw [Op.command]
          split_ifs <;> exact .inl rfl
  | _ => exact .inl rfl

/-- The next command of an operation keeps the invariant. -/
theorem Sound.run (h : Sound s) {j : ℕ} {op : Op} (hj : s.ops[j]? = some op) :
    Sound { s with
      redis := (op.command ttl s.redis).1, ops := s.ops.set j (op.command ttl s.redis).2 } := by
  have hop := h.ops op (List.mem_of_getElem? hj)
  have hnext : (op.command ttl s.redis).2.Sound s := sound_command h hop
  have hredis := redis_of_sound hop ttl
  rcases hredis with heq | ⟨c, hremoves, hun, heq, rest, answer, hclean⟩
  · rw [heq]
    refine h.setOps fun op' hop' => ?_
    rcases List.mem_or_eq_of_mem_set hop' with hop' | rfl
    · exact h.ops op' hop'
    · exact hnext
  · rw [heq]
    have hremoved := h.remove hremoves hun
    refine hremoved.setOps fun op' hop' => ?_
    rcases List.mem_or_eq_of_mem_set hop' with hop' | rfl
    · exact hremoved.ops op' hop'
    · rw [hclean] at hnext ⊢
      exact hnext

/-- Every step keeps the invariant. -/
theorem Sound.step (h : Sound s) {act : Action} (hs : Step ttl act s s') : Sound s' := by
  unfold Step State.next at hs
  cases act with
  | create id =>
      cases hs
      exact h.create _
  | register t =>
      dsimp only at hs
      split at hs
      · cases hs
      · next c hc =>
          cases hs
          obtain ⟨task, htask, hhead⟩ := Option.bind_eq_some_iff.mp hc
          exact h.register htask hhead
  | finish t =>
      dsimp only at hs
      split at hs
      · cases hs
        refine h.modify t _ (fun _ => rfl) (fun _ => rfl) (fun _ _ => rfl) fun task _ => ?_
        exact ⟨List.suffix_refl _, fun hrun => (Bool.false_ne_true hrun).elim,
          fun hrun => (Bool.false_ne_true hrun).elim⟩
      · cases hs
  | cleanup t =>
      dsimp only at hs
      split at hs
      · cases hs
      · next c hc =>
          cases hs
          obtain ⟨task, htask, hhead⟩ := Option.bind_eq_some_iff.mp hc
          have hcleaning := h.cleaning t task htask
          have hmem : c ∈ task.cleaning := List.mem_of_mem_head? hhead
          obtain ⟨hct, hremoves⟩ := task_of_mem_cleanup (hcleaning.1.subset hmem)
          -- a task that is cleaned up has ended
          have hended : ∀ {task : Task}, s.tasks[t]? = some task → task.running = false := by
            intro task' htask'
            obtain rfl : task = task' := Option.some.inj (htask.symm.trans htask')
            by_contra hrun
            rw [hcleaning.2 (eq_true_of_ne_false hrun)] at hmem
            exact List.not_mem_nil hmem
          have hun : Unwanted s c.task := .inr ⟨task, hct.symm ▸ htask, hended htask⟩
          refine (h.remove hremoves hun).modify t Task.cleaned (fun _ => rfl) (fun _ => rfl)
            (fun _ => id) fun old hold => ?_
          have hfalse : ¬ (Task.cleaned old).running := by
            rw [show (Task.cleaned old).running = old.running from rfl, hended hold]
            exact Bool.false_ne_true
          exact ⟨(List.tail_suffix _).trans (h.cleaning t old hold).1,
            fun hrun => absurd hrun hfalse,
            fun hrun => absurd hrun hfalse⟩
  | stop t =>
      cases hs
      exact h.ask t
  | list item =>
      cases hs
      refine h.setOps fun op hop => ?_
      rcases List.mem_append.mp hop with hop | hop
      · exact h.ops op hop
      · rw [List.mem_singleton.mp hop]
        exact trivial
  | heartbeat ts =>
      cases hs
      refine h.setOps fun op hop => ?_
      rcases List.mem_append.mp hop with hop | hop
      · exact h.ops op hop
      · rw [List.mem_singleton.mp hop]
        exact trivial
  | run j =>
      dsimp only at hs
      split at hs
      · cases hs
      · next op hop =>
          cases hs
          exact h.run hop
  | expire t =>
      dsimp only at hs
      split at hs
      · next hguard =>
          cases hs
          obtain ⟨task, htask, hlisted⟩ := (Option.any_eq_true _ _).mp hguard.2
          -- a task whose worker no longer has it has ended
          have hended : task.running = false := by
            by_contra hrun
            rw [h.listed t task htask (eq_true_of_ne_false hrun)] at hlisted
            cases hlisted
          exact h.remove rfl (.inr ⟨task, htask, hended⟩)
      · cases hs

/-- Every reachable state is sound. -/
theorem sound_of_reachable (h : Reachable Initial (Step ttl) s) : Sound s :=
  h.invariant (fun _ => sound_initial) fun _ _ _ hsound hs => hsound.step hs

/-! ## Ended tasks -/

/-- A cleanup command comes after the registration of what it removes. -/
def Registered (act : Action) (s : State) : Prop :=
  match act with
  | .cleanup t => ∀ task c, s.tasks[t]? = some task → task.cleaning.head? = some c →
    ∀ d ∈ task.saving, ¬ c.undoes d
  | _ => True

/-- What the cleanup of an ended task has removed cannot come back. -/
def Cleaned (s : State) : Prop :=
  ∀ (t : TaskId) (task : Task), s.tasks[t]? = some task → task.running = false →
    ∀ c ∈ cleanupCommands t task.item,
      c ∈ task.cleaning ∨ (c.undone s.redis ∧ ∀ d ∈ task.saving, ¬ c.undoes d)

/-- A command that is not of the task, or that the cleanup does not undo. -/
theorem Cleaned.run (h : Cleaned s) (d : Command)
    (hd : ∀ (t : TaskId) (task : Task), s.tasks[t]? = some task → ∀ c ∈ cleanupCommands t task.item,
      (∀ d' ∈ task.saving, ¬ c.undoes d') → ¬ c.undoes d) :
    Cleaned { s with redis := d.run s.redis } := by
  intro t task htask hended c hc
  rcases h t task htask hended c hc with hcleaning | ⟨hundone, hsaving⟩
  · exact .inl hcleaning
  · exact .inr ⟨Command.undone_run (hd t task htask c hc hsaving) hundone, hsaving⟩

/-- A command that removes is not undone by any other. -/
theorem not_undoes_of_removes (hd : d.removes) : ¬ c.undoes d := by
  intro h
  cases c <;> cases d <;> first | exact h | exact Bool.false_ne_true hd

/-- Removing more keeps what was cleaned up gone. -/
theorem Cleaned.remove (h : Cleaned s) (hd : d.removes) :
    Cleaned { s with redis := d.run s.redis } :=
  h.run d fun _ _ _ _ _ _ => not_undoes_of_removes hd

/-- A registration step of a running task restores nothing of a task that has ended. -/
theorem Cleaned.register (h : Cleaned s) (hsound : Sound s) {task : Task}
    (htask : s.tasks[t]? = some task) (hhead : task.saving.head? = some d) :
    Cleaned { s with redis := d.run s.redis, tasks := s.tasks.modify t Task.saved } := by
  have hmem : d ∈ task.saving := List.mem_of_mem_head? hhead
  have hdt : d.task = t := (task_of_mem_save (hsound.head_saving htask hhead).1).1
  have hrun : Cleaned { s with redis := d.run s.redis } := by
    refine h.run d fun u other hother c hc hsaving hundoes => ?_
    -- the command is of the registered task, and then still in its registration
    have hcu : c.task = u := (task_of_mem_cleanup hc).1
    obtain rfl : u = t := hcu.symm.trans ((Command.task_of_undoes hundoes).trans hdt)
    obtain rfl : task = other := Option.some.inj (htask.symm.trans hother)
    exact hsaving d hmem hundoes
  intro u new hnew hended c hc
  rcases of_modify hnew with ⟨-, hold⟩ | ⟨rfl, old, hold, rfl⟩
  · exact hrun u new hold hended c hc
  · rcases hrun t old hold hended c hc with hcleaning | ⟨hundone, hsaving⟩
    · exact .inl hcleaning
    · exact .inr ⟨hundone, fun d' hd' => hsaving d' (List.mem_of_mem_tail hd')⟩

/-- A clean-up step removes its part for good, where the registration of that part has run. -/
theorem Cleaned.cleanup (h : Cleaned s) (hsound : Sound s) {task : Task}
    (htask : s.tasks[t]? = some task) (hhead : task.cleaning.head? = some c)
    (hregistered : ∀ d ∈ task.saving, ¬ c.undoes d) :
    Cleaned { s with redis := c.run s.redis, tasks := s.tasks.modify t Task.cleaned } := by
  have hcons : task.cleaning = c :: task.cleaning.tail := List.eq_cons_of_mem_head? hhead
  have hmem : c ∈ task.cleaning := List.mem_of_mem_head? hhead
  have hremoves := (task_of_mem_cleanup ((hsound.cleaning t task htask).1.subset hmem)).2
  have hrun := h.remove hremoves
  intro u new hnew hended d hd
  rcases of_modify hnew with ⟨-, hold⟩ | ⟨rfl, old, hold, rfl⟩
  · exact hrun u new hold hended d hd
  · obtain rfl : task = old := Option.some.inj (htask.symm.trans hold)
    rcases hrun t task hold hended d hd with hcleaning | hdone
    · rw [hcons] at hcleaning
      rcases List.mem_cons.mp hcleaning with rfl | hrest
      · exact .inr ⟨Command.undone_run_self, hregistered⟩
      · exact .inl hrest
    · exact .inr hdone

/-- Every step keeps the clean-up complete, where tasks are registered before they are cleaned up.
-/
theorem Cleaned.step (h : Cleaned s) (hsound : Sound s) {act : Action}
    (hregistered : Registered act s) (hs : Step ttl act s s') : Cleaned s' := by
  unfold Step State.next at hs
  cases act with
  | create id =>
      cases hs
      intro t task htask hended
      rcases of_snoc htask with htask | ⟨rfl, rfl⟩
      -- a new task runs
      · exact h t task htask hended
      · cases hended
  | register t =>
      dsimp only at hs
      split at hs
      · cases hs
      · next c hc =>
          cases hs
          obtain ⟨task, htask, hhead⟩ := Option.bind_eq_some_iff.mp hc
          exact h.register hsound htask hhead
  | finish t =>
      dsimp only at hs
      split at hs
      · cases hs
        intro u new hnew hended c hc
        rcases of_modify hnew with ⟨-, hold⟩ | ⟨rfl, old, hold, rfl⟩
        · exact h u new hold hended c hc
        -- a task that ends has its whole clean-up before it
        · exact .inl hc
      · cases hs
  | cleanup t =>
      dsimp only at hs
      split at hs
      · cases hs
      · next c hc =>
          cases hs
          obtain ⟨task, htask, hhead⟩ := Option.bind_eq_some_iff.mp hc
          exact h.cleanup hsound htask hhead (hregistered task c htask hhead)
  | stop t =>
      cases hs
      exact h
  | list item =>
      cases hs
      exact h
  | heartbeat ts =>
      cases hs
      exact h
  | run j =>
      dsimp only at hs
      split at hs
      · cases hs
      · next op hop =>
          cases hs
          -- a command of an operation removes what is gone, or touches nothing
          rcases redis_of_sound (hsound.ops op (List.mem_of_getElem? hop)) ttl with
            heq | ⟨c, hremoves, -, heq, -⟩
          · rw [heq]
            exact h
          · rw [heq]
            exact h.remove hremoves
  | expire t =>
      dsimp only at hs
      split at hs
      · cases hs
        -- an expired key is a removed one
        exact h.remove rfl
      · cases hs

/-- In a run whose tasks are registered first, what a clean-up removed stays removed. -/
theorem cleaned_of_reachable
    (h : Reachable Initial (fun act s s' => Registered act s ∧ Step ttl act s s') s) :
    Cleaned s := by
  have hall : ∀ s, Reachable Initial (fun act s s' => Registered act s ∧ Step ttl act s s') s →
    Sound s :=
    fun s hs => sound_of_reachable (hs.mono fun _ _ _ => And.right)
  refine h.invariant_of hall ?_ ?_
  · intro s hs t task htask
    rw [hs.1] at htask
    cases htask
  · exact fun _ _ _ hsound hcleaned hs => hcleaned.step hsound hs.1 hs.2

/-! ## The quiet registry -/

/-- When no operation is in progress the registry has every running task that nobody asked
to stop. It has no task that ended, and a chat whose tasks all ended is not busy, if every
cleanup command came after the registration of what it removes. -/
theorem quiet_registry (ttl : ℕ) :
    (∀ s, Reachable Initial (Step ttl) s → Quiet s →
      ∀ (t : TaskId) (task : Task), s.tasks[t]? = some task → task.running → s.asked t = false →
        (s.redis.hash t).isSome ∧ ∀ item, task.item = some item → t ∈ s.redis.items item) ∧
    ∀ s, Reachable Initial (fun act s s' => Registered act s ∧ Step ttl act s s') s → Quiet s →
      (∀ (t : TaskId) (task : Task), s.tasks[t]? = some task → task.running = false →
        s.redis.hash t = none ∧ ∀ item, t ∉ s.redis.items item) ∧
      ∀ item, (∀ task ∈ s.tasks, task.item = some item → task.running = false) →
        (Op.members item).command ttl s.redis = (s.redis, .clean [] []) := by
  refine ⟨fun s hs hquiet t task htask hrun hasked => ?_, fun s hs hquiet => ?_⟩
  · have hsound := sound_of_reachable hs
    have hsaving : task.saving = [] := (hquiet.1 task (List.mem_of_getElem? htask)).1
    have hwanted : ¬ Unwanted s t := by
      rintro (h | ⟨task', htask', hended⟩)
      · exact Bool.false_ne_true (hasked.symm.trans h)
      · obtain rfl : task = task' := Option.some.inj (htask.symm.trans htask')
        exact Bool.false_ne_true (hended.symm.trans hrun)
    have hdone : ∀ c ∈ saveCommands t task.item, c.done s.redis := by
      intro c hc
      refine (hsound.kept t task htask hwanted c hc).resolve_left ?_
      rw [hsaving]
      exact List.not_mem_nil
    refine ⟨hdone (.hset t (task.item.getD "")) (by simp [saveCommands]), fun item hitem => ?_⟩
    exact hdone (.sadd item t) (by simp [saveCommands, hitem])
  · have hsound := sound_of_reachable (hs.mono fun _ _ _ => And.right)
    have hcleaned := cleaned_of_reachable hs
    have hended : ∀ (t : TaskId) (task : Task), s.tasks[t]? = some task → task.running = false →
        s.redis.hash t = none ∧ ∀ item, t ∉ s.redis.items item := by
      intro t task htask hended
      have hcleaning : task.cleaning = [] := (hquiet.1 task (List.mem_of_getElem? htask)).2
      have hundone : ∀ c ∈ cleanupCommands t task.item, c.undone s.redis := by
        intro c hc
        refine ((hcleaned t task htask hended c hc).resolve_left ?_).1
        rw [hcleaning]
        exact List.not_mem_nil
      refine ⟨hundone (.hdel t) (by simp [cleanupCommands]), fun item hmem => ?_⟩
      -- a task is in the set of its own item only
      obtain ⟨task', htask', hitem⟩ := hsound.members item t hmem
      obtain rfl : task = task' := Option.some.inj (htask.symm.trans htask')
      exact hundone (.srem item t) (by simp [cleanupCommands, hitem]) hmem
    refine ⟨hended, fun item hall => ?_⟩
    have hnil : s.redis.items item = [] := by
      refine List.eq_nil_iff_forall_not_mem.mpr fun t ht => ?_
      obtain ⟨task, htask, hitem⟩ := hsound.members item t ht
      exact (hended t task htask (hall task (List.mem_of_getElem? htask) hitem)).2 item ht
    rw [Op.command, if_pos (.inl hnil), hnil]

def emptyRegistry : State :=
  { redis := ⟨fun _ => false, fun _ => none, fun _ => []⟩, tasks := [], asked := fun _ => false,
    ops := [] }

theorem initial_emptyRegistry : Initial emptyRegistry :=
  ⟨rfl, rfl, fun _ => rfl, fun _ => rfl, fun _ => rfl, fun _ => rfl⟩

/-- `State.next`, for cleanups of tasks that are wholly registered. -/
def State.nextRegistered (ttl : ℕ) (s : State) : Action → Option State
  | .cleanup t => if s.tasks[t]?.all fun task => task.saving.isEmpty then
    s.next ttl (.cleanup t) else none
  | act => s.next ttl act

/-- The checked run of the example takes steps of the kind the theorem is about. -/
theorem registered_of_nextRegistered {act : Action} (h : s.nextRegistered ttl act = some s') :
    Registered act s ∧ Step ttl act s s' := by
  cases act with
  | cleanup t =>
      rw [State.nextRegistered] at h
      split_ifs at h with hsaved
      refine ⟨fun task c htask _ d hd => ?_, h⟩
      rw [htask, Option.all_some, List.isEmpty_iff] at hsaved
      rw [hsaved] at hd
      exact absurd hd List.not_mem_nil
  | _ => exact ⟨trivial, h⟩

/-- Two chats with a task each, both registered; the first task ends and is cleaned up. -/
def oneEnds : List Action :=
  [.create (some "chat"), .create (some "other"), .register 0, .register 1,
    .register 0, .register 1,
    .register 0, .register 1, .finish 0, .cleanup 0, .cleanup 0, .cleanup 0]

/-- The task that runs is registered, the one that ended is not, and its chat is not busy. -/
theorem quiet_registry_ended :
    ∃ s : State, oneEnds.foldlM (State.nextRegistered 300) emptyRegistry = some s ∧ Quiet s ∧
      (s.redis.hash 1).isSome ∧ 1 ∈ s.redis.items "other" ∧ s.redis.hash 0 = none ∧
      (Op.members "chat").command 300 s.redis = (s.redis, .clean [] []) := by
  obtain ⟨s, hs⟩ : ∃ s, oneEnds.foldlM (State.nextRegistered 300) emptyRegistry = some s := ⟨_, rfl⟩
  have hstart :
    Reachable Initial (fun act s s' => State.nextRegistered 300 s act = some s') emptyRegistry :=
    .start initial_emptyRegistry
  have hreach := (hstart.foldlM hs).mono fun _ _ _ => registered_of_nextRegistered
  have hquiet : Quiet s := by
    cases hs
    exact ⟨by decide, by decide⟩
  obtain ⟨running, hrunning, hrun, hasked, hitem⟩ : ∃ task : Task, s.tasks[1]? = some task ∧
      task.running ∧ s.asked 1 = false ∧ task.item = some "other" := by
    cases hs
    exact ⟨_, rfl, rfl, rfl, rfl⟩
  obtain ⟨ended, hended, hover⟩ : ∃ task : Task, s.tasks[0]? = some task ∧
    task.running = false := by
    cases hs
    exact ⟨_, rfl, rfl⟩
  have hchat : ∀ task ∈ s.tasks, task.item = some "chat" → task.running = false := by
    cases hs
    decide
  have hkept := (quiet_registry 300).1 s (hreach.mono fun _ _ _ => And.right) hquiet 1
    running hrunning
    hrun hasked
  have hgone := (quiet_registry 300).2 s hreach hquiet
  exact ⟨s, hs, hquiet, hkept.1, hkept.2 "other" hitem, (hgone.1 0 ended hended hover).1,
    hgone.2 "chat" hchat⟩

/-- A task ends and is cleaned up before its registration: the chat stays busy. -/
theorem ended_task_stays :
    ∃ s : State, Reachable Initial (Step 300) s ∧ Quiet s ∧
      (∀ task ∈ s.tasks, task.running = false) ∧ (s.redis.hash 0).isSome ∧
      0 ∈ s.redis.items "chat" ∧
      (Op.members "chat").command 300 s.redis = (s.redis, .probe "chat" [0] [] []) ∧
      (Op.probe "chat" [0] [] []).command 300 s.redis = (s.redis, .clean [] [0]) := by
  obtain ⟨s, hs⟩ : ∃ s, ([.create (some "chat"), .finish 0, .cleanup 0, .cleanup 0, .cleanup 0,
      .register 0, .register 0, .register 0] : List Action).foldlM (State.next 300) emptyRegistry =
        some s := ⟨_, rfl⟩
  have hreach : Reachable Initial (Step 300) s := Reachable.foldlM (.start initial_emptyRegistry) hs
  refine ⟨s, hreach, ?_⟩
  cases hs
  exact ⟨⟨by decide, by decide⟩, by decide, rfl, by decide, rfl, rfl⟩

end OpenWebUI.Tasks
