import Mathlib.Data.List.Basic
import Mathlib.Tactic.SplitIfs

/-! # Recursion under a bound

A recursive program is run with a bound on the depth of its calls: it is still running when
the bound was too small, and otherwise it has returned or raised. A larger bound changes no
outcome, so a program halts when some bound is enough. The rules say when compound programs
halt.
-/

namespace Fuel

/-- The outcome of a run under a bound. -/
inductive Run (α : Type) where
  | running
  | raised
  | done (a : α)

variable {α β σ : Type}

namespace Run

protected def bind : Run α → (α → Run β) → Run β
  | running, _ => running
  | raised, _ => raised
  | done a, f => f a

instance : Monad Run where
  pure := done
  bind := Run.bind

@[simp] theorem running_bind (f : α → Run β) : (running >>= f) = running := rfl
@[simp] theorem raised_bind (f : α → Run β) : (raised >>= f) = raised := rfl
@[simp] theorem done_bind (a : α) (f : α → Run β) : (done a >>= f) = f a := rfl

/-- A chain is done where both of its parts are. -/
theorem bind_eq_done {x : Run α} {f : α → Run β} {b : β} :
    (x >>= f) = done b ↔ ∃ a, x = done a ∧ f a = done b := by
  cases x with
  | running => simp
  | raised => simp
  | done a => simp

end Run

open Run

/-- The program over every element, in order. -/
def mapRun (f : α → Run β) : List α → Run (List β)
  | [] => done []
  | a :: l => do
    let b ← f a
    let bs ← mapRun f l
    done (b :: bs)

/-- The program over every element, in order, passing a state on. -/
def traverse (f : α → σ → Run (β × σ)) : List α → σ → Run (List β × σ)
  | [], s => done ([], s)
  | a :: l, s => do
    let r ← f a s
    let rs ← traverse f l r.2
    done (r.1 :: rs.1, rs.2)

/-- What returns from every element returns its results in order. -/
theorem mapRun_eq_done {f : α → Run β} {l : List α} {bs : List β} (h : mapRun f l = done bs) :
    ∀ b ∈ bs, ∃ a ∈ l, f a = done b := by
  induction l generalizing bs with
  | nil =>
      cases h
      exact fun b hb => absurd hb List.not_mem_nil
  | cons a l ih =>
      obtain ⟨b, hb, h⟩ := bind_eq_done.mp h
      obtain ⟨rest, hrest, h⟩ := bind_eq_done.mp h
      cases h
      intro c hc
      rcases List.mem_cons.mp hc with rfl | hc
      · exact ⟨a, List.mem_cons_self, hb⟩
      · obtain ⟨x, hx, hfx⟩ := ih hrest c hc
        exact ⟨x, List.mem_cons_of_mem _ hx, hfx⟩

/-- Every result of a traversal comes from some element and some state. -/
theorem traverse_eq_done {f : α → σ → Run (β × σ)} {l : List α} {s s' : σ} {bs : List β}
    (h : traverse f l s = done (bs, s')) : ∀ b ∈ bs, ∃ a ∈ l, ∃ t t', f a t = done (b, t') := by
  induction l generalizing s bs with
  | nil =>
      cases h
      exact fun b hb => absurd hb List.not_mem_nil
  | cons a l ih =>
      obtain ⟨r, hr, h⟩ := bind_eq_done.mp h
      obtain ⟨rest, hrest, h⟩ := bind_eq_done.mp h
      cases h
      intro c hc
      rcases List.mem_cons.mp hc with rfl | hc
      · exact ⟨a, List.mem_cons_self, s, r.2, hr⟩
      · obtain ⟨x, hx, t, t', hfx⟩ := ih hrest c hc
        exact ⟨x, List.mem_cons_of_mem _ hx, t, t', hfx⟩

/-- Where no element raises, a finished program has finished every element. -/
theorem mapRun_finished {f : α → Run β} {l : List α}
    (hf : ∀ a ∈ l, f a ≠ running → ∃ b, f a = done b) (h : mapRun f l ≠ running) :
    (∃ bs, mapRun f l = done bs) ∧ ∀ a ∈ l, f a ≠ running := by
  induction l with
  | nil => exact ⟨⟨[], rfl⟩, fun a ha => absurd ha List.not_mem_nil⟩
  | cons a l ih =>
      have ha : f a ≠ running := by
        intro hrun
        rw [mapRun, hrun] at h
        exact h rfl
      obtain ⟨b, hb⟩ := hf a List.mem_cons_self ha
      rw [mapRun, hb, done_bind] at h ⊢
      have htail : mapRun f l ≠ running := by
        intro hrun
        rw [hrun] at h
        exact h rfl
      obtain ⟨⟨bs, hbs⟩, hall⟩ := ih (fun x hx => hf x (List.mem_cons_of_mem _ hx)) htail
      refine ⟨⟨b :: bs, by rw [hbs]; rfl⟩, fun x hx => ?_⟩
      rcases List.mem_cons.mp hx with rfl | hx
      · exact ha
      · exact hall x hx

/-- Where no element raises, a finished traversal has come as far as every element has. -/
theorem traverse_finished {f : α → σ → Run (β × σ)} {R : σ → σ → Prop} {Q : α → σ → Prop}
    {l : List α} (hrefl : ∀ s, R s s) (htrans : ∀ s t u, R s t → R t u → R s u)
    (hmono : ∀ a ∈ l, ∀ s t, R s t → Q a s → Q a t)
    (hf : ∀ a ∈ l, ∀ s, f a s ≠ running → ∃ r, f a s = done r ∧ R s r.2 ∧ Q a r.2) :
    ∀ s, traverse f l s ≠ running → ∃ r, traverse f l s = done r ∧ R s r.2 ∧ ∀ a ∈ l, Q a r.2 := by
  induction l with
  | nil => exact fun s _ => ⟨([], s), rfl, hrefl s, fun a ha => absurd ha List.not_mem_nil⟩
  | cons a l ih =>
      intro s h
      have ha : f a s ≠ running := by
        intro hrun
        rw [traverse, hrun] at h
        exact h rfl
      obtain ⟨r, hr, hRr, hQr⟩ := hf a List.mem_cons_self s ha
      rw [traverse, hr, done_bind] at h ⊢
      have htail : traverse f l r.2 ≠ running := by
        intro hrun
        rw [hrun] at h
        exact h rfl
      obtain ⟨rs, hrs, hRrs, hQrs⟩ := ih (fun x hx => hmono x (List.mem_cons_of_mem _ hx))
        (fun x hx => hf x (List.mem_cons_of_mem _ hx)) r.2 htail
      refine ⟨(r.1 :: rs.1, rs.2), by rw [hrs]; rfl, htrans _ _ _ hRr hRrs, fun x hx => ?_⟩
      rcases List.mem_cons.mp hx with rfl | hx
      · exact hmono x List.mem_cons_self _ _ hRrs hQr
      · exact hQrs x hx

/-! ## Larger bounds -/

/-- `x` is still running, or has the outcome `y`. -/
def Approx (x y : Run α) : Prop := x = running ∨ x = y

theorem Approx.refl (x : Run α) : Approx x x := .inr rfl

theorem Approx.eq_of_ne {x y : Run α} (h : Approx x y) (hx : x ≠ running) : y = x :=
  (h.resolve_left hx).symm

/-- Chains approximate where their parts do. -/
theorem Approx.bind {x y : Run α} {f g : α → Run β} (hx : Approx x y)
    (hf : ∀ a, Approx (f a) (g a)) :
    Approx (x >>= f) (y >>= g) := by
  rcases hx with rfl | rfl
  · exact .inl rfl
  · cases x with
    | running => exact .inl rfl
    | raised => exact .inr rfl
    | done a => exact hf a

/-- Loops approximate where their steps do. -/
theorem Approx.mapRun {f g : α → Run β} (h : ∀ a, Approx (f a) (g a)) (l : List α) :
    Approx (mapRun f l) (Fuel.mapRun g l) := by
  induction l with
  | nil => exact .refl _
  | cons a l ih => exact (h a).bind fun b => ih.bind fun bs => .refl _

/-- Loops with a state approximate where their steps do. -/
theorem Approx.traverse {f g : α → σ → Run (β × σ)} (h : ∀ a s, Approx (f a s) (g a s))
    (l : List α) :
    ∀ s, Approx (traverse f l s) (Fuel.traverse g l s) := by
  induction l with
  | nil => exact fun s => .refl _
  | cons a l ih => exact fun s => (h a s).bind fun r => (ih r.2).bind fun rs => .refl _

/-- A larger bound keeps every outcome. -/
def Ascending (x : ℕ → Run α) : Prop := ∀ n, Approx (x n) (x (n + 1))

/-- More fuel never changes a result. -/
theorem Ascending.le {x : ℕ → Run α} (h : Ascending x) {m n : ℕ} (hmn : m ≤ n) :
    Approx (x m) (x n) := by
  induction hmn with
  | refl => exact .refl _
  | @step n _ ih =>
      rcases ih with hrun | heq
      · exact .inl hrun
      · rw [heq]
        exact h n

/-- Some bound is enough. -/
def Halts (x : ℕ → Run α) : Prop := ∃ n, x n ≠ running

/-- From some fuel on the result stays. -/
theorem Halts.from {x : ℕ → Run α} (hx : Ascending x) (h : Halts x) :
    ∃ n, x n ≠ running ∧ ∀ m, n ≤ m → x m = x n := by
  obtain ⟨n, hn⟩ := h
  exact ⟨n, hn, fun m hm => (hx.le hm).eq_of_ne hn⟩

/-- A program that needs one more call halts when that call does. -/
theorem Halts.succ {x y : ℕ → Run α} (h : Halts y) (hxy : ∀ n, x (n + 1) = y n) : Halts x := by
  obtain ⟨n, hn⟩ := h
  exact ⟨n + 1, by rwa [hxy]⟩

theorem halts_of_ne {x : ℕ → Run α} (n : ℕ) (h : x n ≠ running) : Halts x := ⟨n, h⟩

theorem halts_done (a : α) : Halts fun _ => done a := ⟨0, fun h => by cases h⟩

theorem halts_raised : Halts fun _ => (raised : Run α) := ⟨0, fun h => by cases h⟩

/-- A chain halts where its parts do. -/
theorem Halts.bind {x : ℕ → Run α} {f : ℕ → α → Run β} (hx : Ascending x)
    (hf : ∀ a, Ascending fun n => f n a) (hhalts : Halts x)
    (hrest : ∀ n a, x n = done a → Halts fun m => f m a) : Halts fun n => x n >>= f n := by
  obtain ⟨n, hn, hstay⟩ := hhalts.from hx
  cases hout : x n with
  | running => exact absurd hout hn
  | raised =>
      refine ⟨n, ?_⟩
      simp only [hout, raised_bind]
      exact fun h => by cases h
  | done a =>
      obtain ⟨m, hm, hfstay⟩ := (hrest n a hout).from (hf a)
      refine ⟨max n m, ?_⟩
      have hx' := hstay _ (Nat.le_max_left n m)
      simp only [hx', hout, done_bind]
      rw [hfstay _ (Nat.le_max_right n m)]
      exact hm

/-- Chains ascend where their parts do. -/
theorem ascending_bind {x : ℕ → Run α} {f : ℕ → α → Run β} (hx : Ascending x)
    (hf : ∀ a, Ascending fun n => f n a) : Ascending fun n => x n >>= f n :=
  fun n => (hx n).bind fun a => hf a n

/-! ## Recursive programs -/

/-- The recursive program with the body `F`, whose argument stands for the recursive calls. -/
def recurse (F : (α → σ → Run β) → α → σ → Run β) : ℕ → α → σ → Run β
  | 0, _, _ => running
  | n + 1, a, s => F (recurse F n) a s

/-- A body that gets at least as far when its calls do. -/
def Continuous (F : (α → σ → Run β) → α → σ → Run β) : Prop :=
  ∀ f g : α → σ → Run β, (∀ a s, Approx (f a s) (g a s)) → ∀ a s, Approx (F f a s) (F g a s)

/-- A continuous recursion ascends with the fuel. -/
theorem Continuous.ascending {F : (α → σ → Run β) → α → σ → Run β} (hF : Continuous F) (a : α)
    (s : σ) :
    Ascending fun n => recurse F n a s := by
  intro n
  induction n generalizing a s with
  | zero => exact .inl rfl
  | succ n ih => exact hF _ _ (fun a s => ih a s) a s

/-- What holds while a program runs and is kept by its body holds of every outcome. -/
theorem recurse_spec {F : (α → σ → Run β) → α → σ → Run β} {P : α → σ → Run β → Prop}
    (hrun : ∀ a s, P a s running) (hF : ∀ f, (∀ a s, P a s (f a s)) → ∀ a s, P a s (F f a s))
    (n : ℕ) (a : α) (s : σ) : P a s (recurse F n a s) := by
  induction n generalizing a s with
  | zero => exact hrun a s
  | succ n ih => exact hF _ (fun a s => ih a s) a s

/-! ## Lists -/

/-- A loop halts where each of its steps does. -/
theorem Halts.mapRun {f : ℕ → α → Run β} (hf : ∀ a, Ascending fun n => f n a) (l : List α)
    (h : ∀ a ∈ l, Halts fun n => f n a) : Halts fun n => Fuel.mapRun (f n) l := by
  induction l with
  | nil => exact halts_done _
  | cons a l ih =>
      have htail : Ascending fun n => Fuel.mapRun (f n) l :=
        fun n => Approx.mapRun (fun x => hf x n) l
      refine (h a List.mem_cons_self).bind (hf a) (fun b => ?_) fun _ b _ => ?_
      · exact ascending_bind htail fun bs n => .refl _
      · exact (ih fun x hx => h x (List.mem_cons_of_mem _ hx)).bind htail (fun bs n => .refl _)
          fun _ bs _ => halts_done _

/-- A traversal halts when each element halts in every state its invariant allows. -/
theorem Halts.traverse {f : ℕ → α → σ → Run (β × σ)} {I : σ → Prop}
    (hf : ∀ a s, Ascending fun n => f n a s) (l : List α)
    (hstep : ∀ n a s b s', a ∈ l → I s → f n a s = done (b, s') → I s')
    (h : ∀ a ∈ l, ∀ s, I s → Halts fun n => f n a s) :
    ∀ s, I s → Halts fun n => Fuel.traverse (f n) l s := by
  induction l with
  | nil => exact fun s _ => halts_done _
  | cons a l ih =>
      intro s hs
      have htail : ∀ s, Ascending fun n => Fuel.traverse (f n) l s :=
        fun s n => Approx.traverse (fun x t => hf x t n) l s
      refine (h a List.mem_cons_self s hs).bind (hf a s) (fun r => ?_) fun n r hr => ?_
      · exact ascending_bind (htail r.2) fun rs n => .refl _
      · refine (ih (fun n x t b t' hx => hstep n x t b t' (List.mem_cons_of_mem _ hx))
          (fun x hx => h x (List.mem_cons_of_mem _ hx)) r.2 ?_).bind (htail r.2)
            (fun rs n => .refl _)
          fun _ rs _ => halts_done _
        exact hstep n a s r.1 r.2 List.mem_cons_self hs hr

end Fuel
