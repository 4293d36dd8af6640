import OpenWebUI.Chat.Usage

/-! # Merged usages add up

Usages whose counts are natural numbers and whose details nest alike: however a list of them is
merged, each count and each detail is the sum over the list.
-/

namespace OpenWebUI.Chat

open Py

/-! ## Well-formed usages -/

/-- The counts that are read under any spelling, and the costs. -/
def usageCountKeys : List String :=
  ["prompt_tokens", "prompt_eval_count", "prompt_n", "cache_n", "completion_tokens", "eval_count",
    "predicted_n"] ++ usageSummableKeys

/-- The value is absent or a natural number. -/
def IsCount (u : Obj) (key : String) : Prop :=
    u.lookup key = none ∨ ∃ n : ℕ, u.lookup key = some (.num n)

/-- A nested map of natural numbers whose leaves are at the paths `leaf`. -/
inductive HasShape (leaf : List String → Prop) : List String → Json → Prop
  | number (path : List String) (n : ℕ) (h : leaf path) : HasShape leaf path (.num n)
  | map (path : List String) (members : Obj) (h : ¬ leaf path)
      (hmembers : ∀ k v, members.lookup k = some v → HasShape leaf (path ++ [k]) v) :
      HasShape leaf path (.obj members)

structure IsUsage (leaf : List String → Prop) (u : Obj) : Prop where
  nodup : (Assoc.keys u).Nodup
  counts : ∀ key ∈ usageCountKeys, IsCount u key
  details : ∀ key ∈ usageDetailKeys, u.lookup key = none ∨
    ∃ m, u.lookup key = some (.obj m) ∧ HasShape leaf [key] (.obj m)

/-- A count of a usage. -/
def countOf (u : Obj) (key : String) : ℚ := (u.get key).asNum.getD 0

/-- The number at a path of nested maps. -/
def numAt : Json → List String → ℚ
  | v, [] => v.asNum.getD 0
  | .obj members, k :: path => numAt (Obj.get members k) path
  | _, _ :: _ => 0

/-! ## Details -/

section Details

variable {leaf : List String → Prop} {path : List String} {current incoming : Obj}
    {k : String} {v : Json}

@[simp] theorem numAt_null (path : List String) : numAt .null path = 0 := by
  cases path <;> rfl

@[simp] theorem numAt_nil (path : List String) : numAt (.obj []) path = 0 := by
  cases path with
  | nil => rfl
  | cons k path =>
      rw [numAt]
      exact numAt_null path

/-- A member is less deep than its object. -/
theorem depth_of_lookup {members o : Obj} (h : members.lookup k = some (.obj o)) :
    Obj.depth o + 1 ≤ Obj.depth members := by
  induction members with
  | nil => cases h
  | cons p members ih =>
      rw [Assoc.lookup_cons] at h
      obtain ⟨k', v⟩ := p
      by_cases hk : k = k'
      · rw [if_pos hk] at h
        cases Option.some.inj h
        rw [Obj.depth]
        omega
      · rw [if_neg hk] at h
        have hrest := ih h
        cases v with
        | obj o' =>
            rw [Obj.depth]
            omega
        | _ => simpa only [Obj.depth] using hrest

/-- A member has the shape below its key. -/
theorem HasShape.lookup (h : HasShape leaf path (.obj current)) (hk : current.lookup k = some v) :
    HasShape leaf (path ++ [k]) v := by
  cases h with
  | map _ _ _ hmembers => exact hmembers k v hk

theorem hasShape_nil (h : ¬ leaf path) : HasShape leaf path (.obj []) :=
  .map path [] h fun _ _ hk => by cases hk

/-- An object stands where no leaf is. -/
theorem HasShape.not_leaf (h : HasShape leaf path (.obj current)) : ¬ leaf path := by
  cases h with
  | map _ _ hnot _ => exact hnot

/-- A value of the shape is a number at a leaf, or an object. -/
theorem HasShape.cases (h : HasShape leaf path v) :
    (leaf path ∧ ∃ n : ℕ, v = .num n) ∨ ¬ leaf path ∧ ∃ m, v = .obj m ∧
      HasShape leaf path (.obj m) := by
  cases h with
  | number _ n hleaf => exact Or.inl ⟨hleaf, n, rfl⟩
  | map _ m hnot hmembers => exact Or.inr ⟨hnot, m, rfl, .map path m hnot hmembers⟩

/-- Under a leaf's key there is a number, where a missing one is `0`. -/
theorem HasShape.number_at (h : HasShape leaf path (.obj current)) (hleaf : leaf (path ++ [k])) :
    ∃ n : ℕ, current.getD k (.num 0) = .num n ∧
      ∀ p, numAt (.num n) p = numAt (current.get k) p := by
  cases hk : current.lookup k with
  | none =>
      refine ⟨0, by rw [Obj.getD, hk]; rfl, fun p => ?_⟩
      rw [Obj.get_of_absent hk, numAt_null]
      cases p <;> rfl
  | some v =>
      rcases (h.lookup hk).cases with ⟨-, n, rfl⟩ | ⟨hnot, -⟩
      · exact ⟨n, by rw [Obj.getD, hk]; rfl, fun p => by rw [Obj.get_of_lookup hk]⟩
      · exact absurd hleaf hnot

/-- Under the key of a map there is one, where a missing one is empty. -/
theorem HasShape.map_at (h : HasShape leaf path (.obj current)) (hleaf : ¬ leaf (path ++ [k])) :
    HasShape leaf (path ++ [k]) (.obj ((current.getD k (.num 0)).asObj.getD [])) ∧
      (∀ p, numAt (.obj ((current.getD k (.num 0)).asObj.getD [])) p = numAt (current.get k) p) ∧
      Obj.depth ((current.getD k (.num 0)).asObj.getD []) ≤ Obj.depth current ∧
      ((current.lookup k).isSome → (current.getD k (.num 0)).asObj.isSome = true ∧
        Obj.depth ((current.getD k (.num 0)).asObj.getD []) < Obj.depth current) := by
  cases hk : current.lookup k with
  | none =>
      have hnil : (current.getD k (.num 0)).asObj.getD [] = [] := by rw [Obj.getD, hk]; rfl
      rw [hnil, Obj.get_of_absent hk]
      exact ⟨hasShape_nil hleaf, fun p => by rw [numAt_nil, numAt_null],
        by rw [Obj.depth]; exact Nat.zero_le _, fun h => by cases h⟩
  | some v =>
      rcases (h.lookup hk).cases with ⟨hleaf', -⟩ | ⟨-, m, rfl, hm⟩
      · exact absurd hleaf' hleaf
      · have hvalue : current.getD k (.num 0) = .obj m := by rw [Obj.getD, hk]; rfl
        have hdepth := depth_of_lookup hk
        rw [hvalue, Obj.get_of_lookup hk, Json.asObj_obj, Option.getD_some]
        exact ⟨hm, fun p => rfl, by omega, fun _ => ⟨rfl, by omega⟩⟩

/-- The value of one key in the merged map. -/
def mergedValue (fuel : ℕ) (current incoming : Obj) (k : String) (old : Json) : Json :=
  let currentValue := current.getD k (.num 0)
  let incomingValue := incoming.getD k (.num 0)
  if currentValue.asObj.isSome || incomingValue.asObj.isSome then
    .obj (mergeNumericUsageMap fuel (currentValue.asObj.getD []) (incomingValue.asObj.getD []))
  else addUsageValue currentValue incomingValue old

theorem lookup_mergeMap (fuel : ℕ) (current incoming : Obj) (k : String) :
    (mergeNumericUsageMap (fuel + 1) current incoming).lookup k =
      ((incoming.lookup k).or (current.lookup k)).map (mergedValue fuel current incoming k) := by
  have hmap : mergeNumericUsageMap (fuel + 1) current incoming =
      (Assoc.update current incoming).map fun p =>
        (p.1, mergedValue fuel current incoming p.1 p.2) := by
    rw [mergeNumericUsageMap]
    refine List.map_congr_left fun p _ => ?_
    simp only [mergedValue]
    split_ifs <;> rfl
  rw [hmap, Assoc.lookup_map_val, Assoc.lookup_update]

/-- Two numbers are added. -/
theorem addUsageValue_num (m n : ℕ) (old : Json) :
    addUsageValue (.num m) (.num n) old = .num ((m + n : ℕ) : ℚ) := by
  simp [addUsageValue, Json.asNum]

theorem numAt_add (m n : ℕ) (p : List String) :
    numAt (.num ((m + n : ℕ) : ℚ)) p = numAt (.num m) p + numAt (.num n) p := by
  cases p with
  | nil => simp [numAt, Json.asNum]
  | cons k p => simp [numAt]

/-- Maps of one shape are added at every path. -/
theorem mergeMap_spec (fuel : ℕ) : ∀ {path : List String} {current incoming : Obj},
    HasShape leaf path (.obj current) → HasShape leaf path (.obj incoming) →
    Obj.depth current + Obj.depth incoming < fuel →
    HasShape leaf path (.obj (mergeNumericUsageMap fuel current incoming)) ∧
      ∀ p, numAt (.obj (mergeNumericUsageMap fuel current incoming)) p =
        numAt (.obj current) p + numAt (.obj incoming) p := by
  induction fuel with
  | zero => intro path current incoming _ _ hfuel; omega
  | succ fuel ih =>
      intro path current incoming hc hi hfuel
      -- one key: two numbers or two maps, by the shape
      have hkey : ∀ k, (current.lookup k).isSome ∨ (incoming.lookup k).isSome → ∀ old,
          HasShape leaf (path ++ [k]) (mergedValue fuel current incoming k old) ∧
          ∀ p, numAt (mergedValue fuel current incoming k old) p =
            numAt (current.get k) p + numAt (incoming.get k) p := by
        intro k hpresent old
        -- at a leaf there are two numbers
        by_cases hleaf : leaf (path ++ [k])
        · obtain ⟨m, hm, hcp⟩ := hc.number_at hleaf
          obtain ⟨n, hn, hip⟩ := hi.number_at hleaf
          have hvalue : mergedValue fuel current incoming k old = .num ((m + n : ℕ) : ℚ) := by
            rw [mergedValue, hm, hn, ← addUsageValue_num m n old]
            rfl
          rw [hvalue]
          exact ⟨.number _ _ hleaf, fun p => by rw [numAt_add, hcp, hip]⟩
        -- elsewhere two maps, less deep than before
        · obtain ⟨hcm, hcp, hcd, hc'⟩ := hc.map_at hleaf
          obtain ⟨him, hip, hid, hi'⟩ := hi.map_at hleaf
          have hcond :
            ((current.getD k (.num 0)).asObj.isSome || (incoming.getD k (.num 0)).asObj.isSome) =
            true := by
            rw [Bool.or_eq_true]
            exact hpresent.imp (fun h => (hc' h).1) fun h => (hi' h).1
          have hdepth : Obj.depth ((current.getD k (.num 0)).asObj.getD []) +
              Obj.depth ((incoming.getD k (.num 0)).asObj.getD []) < fuel := by
            rcases hpresent with h | h
            · have := (hc' h).2
              omega
            · have := (hi' h).2
              omega
          obtain ⟨hshape, hsum⟩ := ih hcm him hdepth
          rw [mergedValue]
          simp only [if_pos hcond]
          exact ⟨hshape, fun p => by rw [hsum, hcp, hip]⟩
      constructor
      · refine .map path _ hc.not_leaf fun k v hk => ?_
        rw [lookup_mergeMap] at hk
        obtain ⟨old, hold, rfl⟩ := Option.map_eq_some_iff.mp hk
        refine (hkey k ?_ old).1
        cases hik : incoming.lookup k with
        | some w => exact Or.inr rfl
        | none =>
            rw [hik, Option.none_or] at hold
            exact Or.inl (by rw [hold]; rfl)
      · intro p
        cases p with
        | nil => exact (add_zero (0 : ℚ)).symm
        | cons k p =>
            change numAt (Obj.get (mergeNumericUsageMap (fuel + 1) current incoming) k) p =
              numAt (current.get k) p + numAt (incoming.get k) p
            -- a path is followed from its first key on
            have hlookup := lookup_mergeMap fuel current incoming k
            cases hold : (incoming.lookup k).or (current.lookup k) with
            | none =>
                obtain ⟨hik, hck⟩ := Option.or_eq_none_iff.mp hold
                rw [hold] at hlookup
                rw [Obj.get_of_absent hlookup, Obj.get_of_absent hck, Obj.get_of_absent hik,
                  numAt_null, add_zero]
            | some old =>
                rw [hold] at hlookup
                rw [Obj.get_of_lookup hlookup]
                refine (hkey k ?_ old).2 p
                cases hik : incoming.lookup k with
                | some w => exact Or.inr rfl
                | none =>
                    rw [hik, Option.none_or] at hold
                    exact Or.inl (by rw [hold]; rfl)

end Details

/-! ## Normalised usages -/

/-- A value that is absent or a natural number. -/
def Count (v : Json) : Prop := v = .null ∨ ∃ n : ℕ, v = .num n

/-- A normalised usage with these token counts: where a count is `0`, its other spellings say so. -/
structure Normalized (leaf : List String → Prop) (n : Obj) (i o t : ℕ) : Prop
    extends IsUsage leaf n where
  input : n.lookup "input_tokens" = some (.num i)
  output : n.lookup "output_tokens" = some (.num o)
  total : n.lookup "total_tokens" = some (.num t)
  noInput : i = 0 → (n.get "prompt_tokens").truthy = false ∧
    (n.get "prompt_eval_count").truthy = false ∧ (n.lookup "prompt_eval_count" = none →
      (n.get "prompt_n").truthy = false ∧ (n.get "cache_n").truthy = false)
  noOutput : o = 0 → (n.get "completion_tokens").truthy = false ∧
    (n.get "eval_count").truthy = false ∧ (n.get "predicted_n").truthy = false
  noTotal : t = 0 → i = 0 ∧ o = 0

section Normalised

variable {leaf : List String → Prop} {u n : Obj} {x y : Json} {k : String}

/-- What is read is a count. -/
theorem IsCount.get (h : IsCount u k) : Count (u.get k) := by
  rcases h with h | ⟨n, h⟩
  · exact Or.inl (Obj.get_of_absent h)
  · exact Or.inr ⟨n, Obj.get_of_lookup h⟩

/-- An `or` of counts is one. -/
theorem Count.or (hx : Count x) (hy : Count y) : Count (x.or y) := by
  unfold Json.or
  split_ifs
  · exact hx
  · exact hy

theorem truthy_num (q : ℚ) : (Json.num q).truthy = decide (q ≠ 0) := by simp [Json.truthy]

/-- `x or 0` is a natural number. -/
theorem Count.or_zero (hx : Count x) :
    ∃ n : ℕ, x.or (.num 0) = .num n ∧ (x.truthy = false ↔ n = 0) := by
  rcases hx with rfl | ⟨n, rfl⟩
  · exact ⟨0, rfl, iff_of_true rfl rfl⟩
  · unfold Json.or
    by_cases hn : n = 0
    · subst hn
      exact ⟨0, rfl, iff_of_true rfl rfl⟩
    · have htruthy : (Json.num (n : ℚ)).truthy = true := by
        rw [truthy_num]
        exact decide_eq_true (Nat.cast_ne_zero.mpr hn)
      rw [if_pos htruthy]
      exact ⟨n, rfl, by simp [htruthy, hn]⟩

theorem toInt_num (n : ℕ) : (Json.num (n : ℚ)).toInt = some (n : ℤ) := by
  simp [Json.toInt]

/-- A count reads as a natural number. -/
theorem intOrZero_count (hx : Count x) :
    ∃ n : ℕ, intOrZero x = some (n : ℤ) ∧ (x.truthy = false ↔ n = 0) := by
  obtain ⟨n, hn, hzero⟩ := hx.or_zero
  exact ⟨n, by rw [intOrZero, hn, toInt_num], hzero⟩

/-- The input count, and what it says of the spellings when it is `0`. -/
theorem inputTokens_spec (h : IsUsage leaf u) : ∃ i : ℕ, inputTokens u = some (.num i) ∧
    (i = 0 ↔ (u.get "input_tokens").truthy = false ∧ (u.get "prompt_tokens").truthy = false ∧
      (u.get "prompt_eval_count").truthy = false ∧ (u.lookup "prompt_eval_count" = none →
        (u.get "prompt_n").truthy = false ∧ (u.get "cache_n").truthy = false)) := by
  have hcount : ∀ key ∈ usageCountKeys, Count (u.get key) := fun key hkey => (h.counts key hkey).get
  obtain ⟨p, hp, hpzero⟩ := intOrZero_count (hcount "prompt_n" (by decide))
  obtain ⟨c, hc, hczero⟩ := intOrZero_count (hcount "cache_n" (by decide))
  have heval := h.counts "prompt_eval_count" (by decide)
  unfold inputTokens
  cases hin : (u.get "input_tokens").truthy with
  | true =>
      rcases hcount "input_tokens" (by decide) with hnull | ⟨i, hi⟩
      · rw [hnull] at hin; cases hin
      · rw [Json.or_of_truthy hin, Json.or_of_truthy hin, hi]
        rw [hi, truthy_num, decide_eq_true_eq, Nat.cast_ne_zero] at hin
        exact ⟨i, rfl, by simp [hin]⟩
  | false =>
      rw [Json.or_of_falsy hin]
      cases hpr : (u.get "prompt_tokens").truthy with
      | true =>
          rcases hcount "prompt_tokens" (by decide) with hnull | ⟨i, hi⟩
          · rw [hnull] at hpr; cases hpr
          · rw [Json.or_of_truthy hpr, hi]
            rw [hi, truthy_num, decide_eq_true_eq, Nat.cast_ne_zero] at hpr
            exact ⟨i, rfl, by simp [hpr]⟩
      | false =>
          rw [Json.or_of_falsy hpr]
          rcases heval with hnone | ⟨i, hi⟩
          · -- the two counts of llama.cpp are added
            rw [Obj.get_of_absent hnone]
            refine ⟨p + c, ?_, ?_⟩
            · simp [hp, hc]
            · simp [hnone, hpzero, hczero]
          · rw [Obj.get_of_lookup hi]
            refine ⟨i, rfl, ?_⟩
            rw [truthy_num]
            simp [hi]

/-- The output tokens are the first count that is not 0. -/
theorem outputTokens_spec (h : IsUsage leaf u) : ∃ o : ℕ, outputTokens u = .num o ∧
    (o = 0 ↔ (u.get "output_tokens").truthy = false ∧ (u.get "completion_tokens").truthy = false ∧
      (u.get "eval_count").truthy = false ∧ (u.get "predicted_n").truthy = false) := by
  have hcount : ∀ key ∈ usageCountKeys, Count (u.get key) := fun key hkey => (h.counts key hkey).get
  obtain ⟨o, ho, hzero⟩ := ((((hcount "output_tokens" (by decide)).or
    (hcount "completion_tokens" (by decide))).or (hcount "eval_count" (by decide))).or
      (hcount "predicted_n" (by decide))).or_zero
  refine ⟨o, ho, hzero.symm.trans ?_⟩
  have hor : ∀ x y : Json, (x.or y).truthy = false ↔ x.truthy = false ∧ y.truthy = false := by
    intro x y
    unfold Json.or
    cases hx : x.truthy <;> simp [hx]
  rw [hor, hor, hor, and_assoc, and_assoc]

/-- The total is the one given, or the sum. -/
theorem totalTokens_spec (h : IsUsage leaf u) (i o : ℕ) : ∃ t : ℕ,
    totalTokens u (.num i) (.num o) = some (.num t) ∧
      ((u.get "total_tokens").truthy = true → u.get "total_tokens" = .num t) ∧
      ((u.get "total_tokens").truthy = false → t = i + o) ∧ (t = 0 → i = 0 ∧ o = 0) := by
  unfold totalTokens
  cases ht : (u.get "total_tokens").truthy with
  | true =>
      rcases (h.counts "total_tokens" (by decide)).get with hnull | ⟨t, htotal⟩
      · rw [hnull] at ht; cases ht
      · refine ⟨t, by rw [htotal]; rfl, fun _ => htotal, fun hfalse => (by cases hfalse),
          fun hzero => ?_⟩
        rw [htotal, truthy_num, hzero] at ht
        simp at ht
  | false =>
      refine ⟨i + o, ?_, fun htrue => (by cases htrue), fun _ => rfl, fun hzero => by omega⟩
      simp [Json.add, Json.asOperand]

/-- The three counts are set. -/
def withTokens (u : Obj) (i o t : ℕ) : Obj :=
  Assoc.set (Assoc.set (Assoc.set u "input_tokens" (.num i)) "output_tokens" (.num o))
    "total_tokens" (.num t)

theorem lookup_withTokens (u : Obj) (i o t : ℕ) (k : String) : (withTokens u i o t).lookup k =
    if k = "total_tokens" then some (.num t) else if k = "output_tokens" then some (.num o)
    else if k = "input_tokens" then some (.num i) else u.lookup k := by
  rw [withTokens, Assoc.lookup_set, Assoc.lookup_set, Assoc.lookup_set]

/-- What normalizing returns. -/
theorem normalizeUsage_of {i o t : ℕ} (hne : u ≠ []) (hi : inputTokens u = some (.num i))
    (ho : outputTokens u = .num o) (ht : totalTokens u (.num i) (.num o) = some (.num t)) :
    normalizeUsage u = some (withTokens u i o t) := by
  rw [normalizeUsage, if_neg hne, hi, ho]
  simp [ht, Json.toInt, withTokens]

/-- A usage is normalised once and for all. -/
theorem Normalized.normalize {i o t : ℕ} (h : Normalized leaf n i o t) :
    normalizeUsage n = some n := by
  have hne : n ≠ [] := by
    rintro rfl
    cases h.input
  obtain ⟨i', hi, hizero⟩ := inputTokens_spec h.toIsUsage
  obtain ⟨o', ho, hozero⟩ := outputTokens_spec h.toIsUsage
  have hinput : i' = i := by
    have hget : n.get "input_tokens" = .num i := Obj.get_of_lookup h.input
    rcases Nat.eq_zero_or_pos i with rfl | hpos
    · exact hizero.mpr ⟨by rw [hget, truthy_num]; simp, h.noInput rfl⟩
    · have htruthy : (n.get "input_tokens").truthy = true := by
        rw [hget, truthy_num]
        exact decide_eq_true (Nat.cast_ne_zero.mpr (by omega))
      rw [inputTokens, Json.or_of_truthy htruthy, Json.or_of_truthy htruthy, hget] at hi
      simpa using hi.symm
  have houtput : o' = o := by
    have hget : n.get "output_tokens" = .num o := Obj.get_of_lookup h.output
    rcases Nat.eq_zero_or_pos o with rfl | hpos
    · exact hozero.mpr ⟨by rw [hget, truthy_num]; simp, h.noOutput rfl⟩
    · have htruthy : (n.get "output_tokens").truthy = true := by
        rw [hget, truthy_num]
        exact decide_eq_true (Nat.cast_ne_zero.mpr (by omega))
      rw [outputTokens, Json.or_of_truthy htruthy, Json.or_of_truthy htruthy,
        Json.or_of_truthy htruthy, Json.or_of_truthy htruthy, hget] at ho
      simpa using ho.symm
  subst hinput houtput
  obtain ⟨t', ht, htrue, hfalse, -⟩ := totalTokens_spec h.toIsUsage i' o'
  have hget : n.get "total_tokens" = .num t := Obj.get_of_lookup h.total
  have htotal : t' = t := by
    rcases Nat.eq_zero_or_pos t with rfl | hpos
    · have hzero := h.noTotal rfl
      have := hfalse (by rw [hget, truthy_num]; simp)
      omega
    · have htruthy : (n.get "total_tokens").truthy = true := by
        rw [hget, truthy_num]
        exact decide_eq_true (Nat.cast_ne_zero.mpr (by omega))
      have := htrue htruthy
      rw [hget] at this
      simpa using this.symm
  subst htotal
  rw [normalizeUsage_of hne hi ho ht, withTokens, Assoc.set_of_lookup h.nodup h.input,
    Assoc.set_of_lookup h.nodup h.output, Assoc.set_of_lookup h.nodup h.total]

/-- Normalising settles a usage and changes nothing but the three counts. -/
theorem settle (h : IsUsage leaf u) (hne : u ≠ []) : ∃ i o t : ℕ,
    normalizeUsage u = some (withTokens u i o t) ∧ Normalized leaf (withTokens u i o t) i o t := by
  obtain ⟨i, hi, hizero⟩ := inputTokens_spec h
  obtain ⟨o, ho, hozero⟩ := outputTokens_spec h
  obtain ⟨t, ht, -, -, htzero⟩ := totalTokens_spec h i o
  refine ⟨i, o, t, normalizeUsage_of hne hi ho ht, ?_⟩
  -- the three token counts are set, and the rest is as it came
  have hother : ∀ k, k ≠ "total_tokens" → k ≠ "output_tokens" → k ≠ "input_tokens" →
      (withTokens u i o t).lookup k = u.lookup k := by
    intro k h₁ h₂ h₃
    rw [lookup_withTokens, if_neg h₁, if_neg h₂, if_neg h₃]
  have hget : ∀ k, k ≠ "total_tokens" → k ≠ "output_tokens" → k ≠ "input_tokens" →
      (withTokens u i o t).get k = u.get k := by
    intro k h₁ h₂ h₃
    rw [Obj.get, hother k h₁ h₂ h₃, Obj.get]
  refine ⟨⟨?_, ?_, ?_⟩, ?_, ?_, ?_, ?_, ?_, htzero⟩
  · exact Assoc.nodup_keys_set (Assoc.nodup_keys_set (Assoc.nodup_keys_set h.nodup _ _) _ _) _ _
  · intro key hkey
    rw [IsCount, lookup_withTokens]
    split_ifs
    · exact Or.inr ⟨t, rfl⟩
    · exact Or.inr ⟨o, rfl⟩
    · exact Or.inr ⟨i, rfl⟩
    · exact h.counts key hkey
  · intro key hkey
    have hne : key ≠ "total_tokens" ∧ key ≠ "output_tokens" ∧ key ≠ "input_tokens" := by
      revert key
      decide
    rw [hother key hne.1 hne.2.1 hne.2.2]
    exact h.details key hkey
  -- the three counts are those just set
  · rw [lookup_withTokens]
    rfl
  · rw [lookup_withTokens]
    rfl
  · rw [lookup_withTokens]
    rfl
  -- a zero says that none of the other spellings has a count
  · intro hzero
    obtain ⟨-, hprompt, heval, hllama⟩ := hizero.mp hzero
    rw [hget _ (by decide) (by decide) (by decide), hget _ (by decide) (by decide) (by decide),
      hget _ (by decide) (by decide) (by decide), hget _ (by decide) (by decide) (by decide),
      hother _ (by decide) (by decide) (by decide)]
    exact ⟨hprompt, heval, hllama⟩
  · intro hzero
    obtain ⟨-, hcompletion, heval, hpredicted⟩ := hozero.mp hzero
    rw [hget _ (by decide) (by decide) (by decide), hget _ (by decide) (by decide) (by decide),
      hget _ (by decide) (by decide) (by decide)]
    exact ⟨hcompletion, heval, hpredicted⟩

end Normalised

/-! ## Two normalised usages -/

/-- The end of `merge_usage`, for two usages that are not empty. -/
def joinUsage (current incoming : Obj) : Obj :=
  let result := usageDetailKeys.foldl (mergeDetails current incoming)
    (usageSummableKeys.foldl (mergeSummable current incoming) (Assoc.update current incoming))
  Assoc.set (Assoc.set result "prompt_tokens"
    (((incoming.get "prompt_tokens").or (incoming.get "input_tokens")).or
      (current.getD "prompt_tokens" (.num 0)))) "completion_tokens"
    (((incoming.get "completion_tokens").or (incoming.get "output_tokens")).or
      (current.getD "completion_tokens" (.num 0)))

section Join

variable {leaf : List String → Prop} {a b u v : Obj} {k : String} {w : Json} {i o t i' o' t' : ℕ}

/-- A loop that sets keys to values that do not depend on what was set. -/
theorem lookup_foldl_set {f : Obj → String → Obj} {c : String → Bool} {val : String → Obj → Json}
    (hf : ∀ r key, f r key = if c key then Assoc.set r key (val key r) else r) (keys : List String)
    (hw : k ∈ keys → c k = true → ∀ r, val k r = w) (r : Obj) :
    (keys.foldl f r).lookup k = if k ∈ keys ∧ c k = true then some w else r.lookup k := by
  induction keys generalizing r with
  | nil => rw [if_neg fun h => absurd h.1 List.not_mem_nil]; rfl
  | cons key keys ih =>
      rw [List.foldl_cons, ih fun hmem => hw (List.mem_cons_of_mem _ hmem), hf]
      by_cases hkey : k = key
      · subst hkey
        cases hc : c k with
        | true => simp [hw List.mem_cons_self hc]
        | false => simp
      · have hlookup :
          (if c key then Assoc.set r key (val key r) else r).lookup k = r.lookup k := by
          split_ifs
          · exact Assoc.lookup_set_ne _ _ hkey
          · rfl
        rw [hlookup]
        simp [hkey]

theorem nodup_foldl_set {f : Obj → String → Obj} {c : String → Bool} {val : String → Obj → Json}
    (hf : ∀ r key, f r key = if c key then Assoc.set r key (val key r) else r) (keys : List String)
    {r : Obj} (hr : (Assoc.keys r).Nodup) : (Assoc.keys (keys.foldl f r)).Nodup := by
  induction keys generalizing r with
  | nil => exact hr
  | cons key keys ih =>
      rw [List.foldl_cons, hf]
      refine ih ?_
      split_ifs
      · exact Assoc.nodup_keys_set hr _ _
      · exact hr

/-- A count read with its default. -/
theorem getD_count (h : IsCount u k) : ∃ n : ℕ, u.getD k (.num 0) = .num n ∧ countOf u k = n := by
  rcases h with h | ⟨n, h⟩
  · exact ⟨0, by rw [Obj.getD, h]; rfl, by rw [countOf, Obj.get_of_absent h]; simp [Json.asNum]⟩
  · exact ⟨n, by rw [Obj.getD, h]; rfl, by rw [countOf, Obj.get_of_lookup h]; simp [Json.asNum]⟩

/-- A field that is summed. -/
theorem mergeSummable_eq (a b r : Obj) (key : String) : mergeSummable a b r key =
    if (Assoc.has a key || Assoc.has b key) = true then
      Assoc.set r key (addUsageValue (a.getD key (.num 0)) (b.getD key (.num 0)) (r.get key))
    else r := rfl

/-- The details of both usages under a key. -/
def joinDetails (a b : Obj) (key : String) : Json :=
  .obj (mergeNumericUsageMap
    (Obj.depth ((a.get key).asObj.getD []) + Obj.depth ((b.get key).asObj.getD []) + 1)
    ((a.get key).asObj.getD []) ((b.get key).asObj.getD []))

/-- A field of details. -/
theorem mergeDetails_eq (a b r : Obj) (key : String) : mergeDetails a b r key =
    if ((a.get key).asObj.isSome || (b.get key).asObj.isSome) = true then
      Assoc.set r key (joinDetails a b key)
    else r := rfl

/-- What is under a key of the joined usage. -/
theorem lookup_joinUsage (ha : IsUsage leaf a) (hb : IsUsage leaf b) (hprompt : k ≠ "prompt_tokens")
    (hcompletion : k ≠ "completion_tokens") : (joinUsage a b).lookup k =
      if k ∈ usageDetailKeys ∧ ((a.get k).asObj.isSome || (b.get k).asObj.isSome) = true then
        some (joinDetails a b k)
      else if k ∈ usageSummableKeys ∧ (Assoc.has a k || Assoc.has b k) = true then
        some (.num (countOf a k + countOf b k))
      else (b.lookup k).or (a.lookup k) := by
  have hsum : k ∈ usageSummableKeys → (Assoc.has a k || Assoc.has b k) = true → ∀ r : Obj,
      addUsageValue (a.getD k (.num 0)) (b.getD k (.num 0)) (r.get k) =
        .num (countOf a k + countOf b k) := by
    intro hmem _ r
    have hkey : k ∈ usageCountKeys := List.mem_append_right _ hmem
    obtain ⟨m, hm, hma⟩ := getD_count (ha.counts k hkey)
    obtain ⟨n, hn, hnb⟩ := getD_count (hb.counts k hkey)
    rw [hm, hn, addUsageValue_num, hma, hnb, Nat.cast_add]
  rw [joinUsage, Assoc.lookup_set_ne _ _ hcompletion, Assoc.lookup_set_ne _ _ hprompt,
    lookup_foldl_set (mergeDetails_eq a b) usageDetailKeys fun _ _ _ => rfl,
    lookup_foldl_set (mergeSummable_eq a b) usageSummableKeys hsum, Assoc.lookup_update]

theorem nodup_joinUsage (ha : IsUsage leaf a) (hb : IsUsage leaf b) :
    (Assoc.keys (joinUsage a b)).Nodup := by
  refine Assoc.nodup_keys_set (Assoc.nodup_keys_set ?_ _ _) _ _
  exact nodup_foldl_set (mergeDetails_eq a b) _
    (nodup_foldl_set (mergeSummable_eq a b) _ (Assoc.nodup_keys_update ha.nodup hb.nodup))

/-- The maps under a key of the details, where a missing one is empty. -/
theorem details_at (h : IsUsage leaf u) (hk : k ∈ usageDetailKeys) :
    (u.lookup k = none ∧ u.get k = .null ∧ (u.get k).asObj = none) ∨
      ∃ m, u.lookup k = some (.obj m) ∧ u.get k = .obj m ∧ HasShape leaf [k] (.obj m) := by
  rcases h.details k hk with hnone | ⟨m, hm, hshape⟩
  · exact Or.inl ⟨hnone, Obj.get_of_absent hnone, by rw [Obj.get_of_absent hnone]; rfl⟩
  · exact Or.inr ⟨m, hm, Obj.get_of_lookup hm, hshape⟩

theorem details_ne (hk : k ∈ usageDetailKeys) : k ≠ "prompt_tokens" ∧ k ≠ "completion_tokens" ∧
    k ∉ usageSummableKeys ∧ k ∉ usageCountKeys := by
  revert k
  decide

theorem summable_ne (hk : k ∈ usageSummableKeys) :
    k ≠ "prompt_tokens" ∧ k ≠ "completion_tokens" ∧ k ∉ usageDetailKeys := by
  revert k
  decide

/-- Joined details are the sums at every path. -/
theorem joinDetails_spec {m n : Obj} (hm : (a.get k).asObj.getD [] = m)
    (hn : (b.get k).asObj.getD [] = n) (hms : HasShape leaf [k] (.obj m))
    (hns : HasShape leaf [k] (.obj n)) :
    (∃ j, joinDetails a b k = .obj j ∧ HasShape leaf [k] (.obj j)) ∧
      ∀ p, numAt (joinDetails a b k) p = numAt (.obj m) p + numAt (.obj n) p := by
  unfold joinDetails
  rw [hm, hn]
  obtain ⟨hshape, hsum⟩ := mergeMap_spec (Obj.depth m + Obj.depth n + 1) hms hns (by omega)
  exact ⟨⟨_, rfl, hshape⟩, hsum⟩

/-- The details of a joined usage add up. -/
theorem details_joinUsage (ha : IsUsage leaf a) (hb : IsUsage leaf b) (hk : k ∈ usageDetailKeys) :
    ((joinUsage a b).lookup k = none ∨
      ∃ m, (joinUsage a b).lookup k = some (.obj m) ∧ HasShape leaf [k] (.obj m)) ∧
      ∀ p, numAt ((joinUsage a b).get k) p = numAt (a.get k) p + numAt (b.get k) p := by
  obtain ⟨hprompt, hcompletion, hsum, -⟩ := details_ne hk
  have hlookup := lookup_joinUsage ha hb hprompt hcompletion
  rw [if_neg fun h : k ∈ usageSummableKeys ∧ _ => hsum h.1] at hlookup
  have hjoined : ∀ {m n : Obj}, (a.get k).asObj.getD [] = m → (b.get k).asObj.getD [] = n →
      HasShape leaf [k] (.obj m) → HasShape leaf [k] (.obj n) →
      ((a.get k).asObj.isSome || (b.get k).asObj.isSome) = true →
      numAt (.obj m) = numAt (a.get k) → numAt (.obj n) = numAt (b.get k) →
      ((joinUsage a b).lookup k = none ∨
        ∃ m, (joinUsage a b).lookup k = some (.obj m) ∧ HasShape leaf [k] (.obj m)) ∧
        ∀ p, numAt ((joinUsage a b).get k) p = numAt (a.get k) p + numAt (b.get k) p := by
    intro m n hm hn hms hns hcond hma hnb
    obtain ⟨⟨j, hj, hshape⟩, hadd⟩ := joinDetails_spec hm hn hms hns
    rw [if_pos ⟨hk, hcond⟩] at hlookup
    refine ⟨Or.inr ⟨j, by rw [hlookup, hj], hshape⟩, fun p => ?_⟩
    rw [Obj.get_of_lookup hlookup, hadd, hma, hnb]
  have hnil : numAt (.obj []) = numAt .null :=
    funext fun p => (numAt_nil p).trans (numAt_null p).symm
  rcases details_at ha hk with ⟨hna, hga, hoa⟩ | ⟨m, hma, hga, hms⟩ <;>
    rcases details_at hb hk with ⟨hnb, hgb, hob⟩ | ⟨n, hnb, hgb, hns⟩
  · rw [if_neg (by simp [hoa, hob]), hna, hnb] at hlookup
    refine ⟨Or.inl hlookup, fun p => ?_⟩
    rw [Obj.get_of_absent hlookup, hga, hgb, numAt_null, add_zero]
  · exact hjoined (by rw [hga]; rfl) (by rw [hgb]; rfl) (hasShape_nil hns.not_leaf) hns
      (by simp [hgb])
      (by rw [hga, hnil]) (by rw [hgb])
  · exact hjoined (by rw [hga]; rfl) (by rw [hgb]; rfl) hms (hasShape_nil hms.not_leaf)
      (by simp [hga])
      (by rw [hga]) (by rw [hgb, hnil])
  · exact hjoined (by rw [hga]; rfl) (by rw [hgb]; rfl) hms hns (by simp [hga])
      (by rw [hga]) (by rw [hgb])

/-- The counts of a joined usage add up. -/
theorem count_joinUsage (ha : IsUsage leaf a) (hb : IsUsage leaf b) (hk : k ∈ usageSummableKeys) :
    IsCount (joinUsage a b) k ∧ countOf (joinUsage a b) k = countOf a k + countOf b k := by
  have hne := summable_ne hk
  have hkey : k ∈ usageCountKeys := List.mem_append_right _ hk
  have hlookup := lookup_joinUsage ha hb hne.1 hne.2.1
  rw [if_neg fun h : k ∈ usageDetailKeys ∧ _ => hne.2.2 h.1] at hlookup
  cases hhas : (Assoc.has a k || Assoc.has b k) with
  | true =>
      rw [if_pos ⟨hk, hhas⟩] at hlookup
      obtain ⟨m, -, hma⟩ := getD_count (ha.counts k hkey)
      obtain ⟨n, -, hnb⟩ := getD_count (hb.counts k hkey)
      refine ⟨Or.inr ⟨m + n, by rw [hlookup, hma, hnb, Nat.cast_add]⟩, ?_⟩
      rw [countOf, Obj.get_of_lookup hlookup]
      rfl
  | false =>
      obtain ⟨hna, hnb⟩ := Bool.or_eq_false_iff.mp hhas
      have hna' : a.lookup k = none := by simpa [Assoc.has] using hna
      have hnb' : b.lookup k = none := by simpa [Assoc.has] using hnb
      rw [if_neg (by simp [hhas]), hna', hnb'] at hlookup
      refine ⟨Or.inl hlookup, ?_⟩
      rw [countOf, countOf, countOf, Obj.get_of_absent hlookup, Obj.get_of_absent hna',
        Obj.get_of_absent hnb']
      simp [Json.asNum]

/-- A field is a count where it is one on both sides. -/
theorem IsCount.or (ha : IsCount a k) (hb : IsCount b k) :
    (b.lookup k).or (a.lookup k) = none ∨
      ∃ n : ℕ, (b.lookup k).or (a.lookup k) = some (.num n) := by
  rcases hb with hb | ⟨n, hb⟩
  · rw [hb]
    exact ha
  · rw [hb]
    exact Or.inr ⟨n, rfl⟩

/-- Two usages without a count have none together. -/
theorem falsy_or (h : (joinUsage a b).lookup k = (b.lookup k).or (a.lookup k))
    (ha : (a.get k).truthy = false) (hb : (b.get k).truthy = false) :
    ((joinUsage a b).get k).truthy = false := by
  rw [Obj.get, h]
  cases hlookup : b.lookup k with
  | none => exact ha
  | some v => rwa [Obj.get_of_lookup hlookup] at hb

theorem lookup_joinUsage_prompt (a b : Obj) : (joinUsage a b).lookup "prompt_tokens" =
    some (((b.get "prompt_tokens").or (b.get "input_tokens")).or
      (a.getD "prompt_tokens" (.num 0))) := by
  rw [joinUsage, Assoc.lookup_set_ne _ _ (by decide), Assoc.lookup_set_self]

theorem lookup_joinUsage_completion (a b : Obj) : (joinUsage a b).lookup "completion_tokens" =
    some (((b.get "completion_tokens").or (b.get "output_tokens")).or
      (a.getD "completion_tokens" (.num 0))) := by
  rw [joinUsage, Assoc.lookup_set_self]

/-- A spelling that is kept as the later usage has it. -/
theorem lookup_joinUsage_alias (ha : IsUsage leaf a) (hb : IsUsage leaf b)
    (hk : k ∈ ["prompt_eval_count", "prompt_n", "cache_n", "eval_count", "predicted_n"]) :
    (joinUsage a b).lookup k = (b.lookup k).or (a.lookup k) := by
  have hne : k ≠ "prompt_tokens" ∧ k ≠ "completion_tokens" ∧ k ∉ usageDetailKeys ∧
    k ∉ usageSummableKeys := by
    revert k
    decide
  rw [lookup_joinUsage ha hb hne.1 hne.2.1, if_neg fun h => hne.2.2.1 h.1,
    if_neg fun h => hne.2.2.2 h.1]

/-- A stored number is a count. -/
theorem IsCount.of_count (h : u.lookup k = some w) (hw : ∃ n : ℕ, w = .num n) : IsCount u k := by
  obtain ⟨n, rfl⟩ := hw
  exact Or.inr ⟨n, h⟩

/-- A count or a number is a number. -/
theorem or_num {x : Json} (hx : Count x) (y : Json) (hy : ∃ n : ℕ, y = .num n) :
    ∃ n : ℕ, x.or y = .num n := by
  unfold Json.or
  split_ifs with htruthy
  · rcases hx with rfl | hx
    · cases htruthy
    · exact hx
  · exact hy

/-- The joined usage is usage again. -/
theorem isUsage_joinUsage (ha : IsUsage leaf a) (hb : IsUsage leaf b) :
    IsUsage leaf (joinUsage a b) := by
  refine ⟨nodup_joinUsage ha hb, fun key hkey => ?_,
    fun key hkey => (details_joinUsage ha hb hkey).1⟩
  have hcases : key = "prompt_tokens" ∨ key = "completion_tokens" ∨ key ∈ usageSummableKeys ∨
      key ∈ ["prompt_eval_count", "prompt_n", "cache_n", "eval_count", "predicted_n"] := by
    revert key
    decide
  rcases hcases with rfl | rfl | hsum | halias
  · obtain ⟨n, hn, -⟩ := getD_count (ha.counts "prompt_tokens" hkey)
    refine .of_count (lookup_joinUsage_prompt a b) (or_num (Count.or ?_ ?_) _ ⟨n, hn⟩)
    · exact (hb.counts _ (by decide)).get
    · exact (hb.counts _ (by decide)).get
  · obtain ⟨n, hn, -⟩ := getD_count (ha.counts "completion_tokens" hkey)
    refine .of_count (lookup_joinUsage_completion a b) (or_num (Count.or ?_ ?_) _ ⟨n, hn⟩)
    · exact (hb.counts _ (by decide)).get
    · exact (hb.counts _ (by decide)).get
  · exact (count_joinUsage ha hb hsum).1
  · rw [IsCount, lookup_joinUsage_alias ha hb halias]
    exact (ha.counts key hkey).or (hb.counts key hkey)

theorem lookup_of_count (h : IsCount u k) {n : ℕ} (hn : countOf u k = n)
    (hhas : (u.lookup k).isSome) :
    u.lookup k = some (.num n) := by
  rcases h with h | ⟨m, h⟩
  · rw [h] at hhas
    cases hhas
  · rw [countOf, Obj.get_of_lookup h] at hn
    rw [h, ← hn]
    rfl

theorem falsy_of_zero (h : u.lookup k = some (.num ((0 : ℕ) : ℚ))) : (u.get k).truthy = false := by
  rw [Obj.get_of_lookup h, truthy_num]
  simp

theorem or_falsy {x y : Json} (hx : x.truthy = false) (hy : y.truthy = false) :
    (x.or y).truthy = false := by
  rw [Json.or_of_falsy hx]
  exact hy

theorem getD_falsy (h : (u.get k).truthy = false) : (u.getD k (.num 0)).truthy = false := by
  rw [Obj.getD]
  cases hlookup : u.lookup k with
  | none => rfl
  | some v => rwa [Obj.get_of_lookup hlookup] at h

/-- Normalised usages are joined to a normalised one. -/
theorem Normalized.join (ha : Normalized leaf a i o t) (hb : Normalized leaf b i' o' t') :
    Normalized leaf (joinUsage a b) (i + i') (o + o') (t + t') := by
  have husage := isUsage_joinUsage ha.toIsUsage hb.toIsUsage
  have hsum : ∀ {k : String} {m n : ℕ}, k ∈ usageSummableKeys → a.lookup k = some (.num m) →
      b.lookup k = some (.num n) → (joinUsage a b).lookup k = some (.num ((m + n : ℕ) : ℚ)) := by
    intro k m n hk hm hn
    obtain ⟨hcount, hadd⟩ := count_joinUsage ha.toIsUsage hb.toIsUsage hk
    have hne := summable_ne hk
    refine lookup_of_count hcount ?_ ?_
    · rw [hadd, countOf, countOf, Obj.get_of_lookup hm, Obj.get_of_lookup hn]
      simp [Json.asNum]
    · rw [lookup_joinUsage ha.toIsUsage hb.toIsUsage hne.1 hne.2.1, if_neg fun h => hne.2.2 h.1,
        if_pos ⟨hk, by rw [Assoc.has, hm]; rfl⟩]
      rfl
  refine ⟨husage, hsum (by decide) ha.input hb.input, hsum (by decide) ha.output hb.output,
    hsum (by decide) ha.total hb.total, fun hzero => ?_, fun hzero => ?_, fun hzero => ?_⟩
  · obtain ⟨rfl, rfl⟩ : i = 0 ∧ i' = 0 := by omega
    obtain ⟨hpa, hea, hla⟩ := ha.noInput rfl
    obtain ⟨hpb, heb, hlb⟩ := hb.noInput rfl
    refine ⟨?_, falsy_or (lookup_joinUsage_alias ha.toIsUsage hb.toIsUsage (by decide)) hea heb,
      fun hnone => ?_⟩
    · rw [Obj.get_of_lookup (lookup_joinUsage_prompt a b)]
      exact or_falsy (or_falsy hpb (falsy_of_zero hb.input)) (getD_falsy hpa)
    · rw [lookup_joinUsage_alias ha.toIsUsage hb.toIsUsage (by decide)] at hnone
      obtain ⟨hnb, hna⟩ := Option.or_eq_none_iff.mp hnone
      exact ⟨falsy_or (lookup_joinUsage_alias ha.toIsUsage hb.toIsUsage (by decide))
        (hla hna).1 (hlb hnb).1,
        falsy_or (lookup_joinUsage_alias ha.toIsUsage hb.toIsUsage (by decide))
          (hla hna).2 (hlb hnb).2⟩
  · obtain ⟨rfl, rfl⟩ : o = 0 ∧ o' = 0 := by omega
    obtain ⟨hca, hea, hpa⟩ := ha.noOutput rfl
    obtain ⟨hcb, heb, hpb⟩ := hb.noOutput rfl
    refine ⟨?_, falsy_or (lookup_joinUsage_alias ha.toIsUsage hb.toIsUsage (by decide)) hea heb,
      falsy_or (lookup_joinUsage_alias ha.toIsUsage hb.toIsUsage (by decide)) hpa hpb⟩
    rw [Obj.get_of_lookup (lookup_joinUsage_completion a b)]
    exact or_falsy (or_falsy hcb (falsy_of_zero hb.output)) (getD_falsy hca)
  · have hat := ha.noTotal
    have hbt := hb.noTotal
    omega

end Join

/-! ## Lists of usages -/

/-- A list of usages, bracketed. -/
inductive Merging where
  | one (usage : Obj)
  | both (l r : Merging)

def Merging.usages : Merging → List Obj
  | .one u => [u]
  | .both l r => l.usages ++ r.usages

def Merging.merge : Merging → Option Obj
  | .one u => some u
  | .both l r => do mergeUsage (← l.merge) (← r.merge)

/-- The usage as it is counted. -/
def normalized (u : Obj) : Obj := (normalizeUsage u).getD []

section Merge

variable {leaf : List String → Prop} {u v : Obj}

/-- `n` is empty or settled, and has the counts and details `count` and `detail`. -/
structure Adds (leaf : List String → Prop) (n : Obj) (count : String → ℚ)
    (detail : String → List String → ℚ) : Prop where
  settled : n = [] ∨ ∃ i o t, Normalized leaf n i o t
  count : ∀ key ∈ usageSummableKeys, countOf n key = count key
  detail : ∀ key ∈ usageDetailKeys, ∀ path, numAt (n.get key) path = detail key path

/-- The sum is normalized already. -/
theorem Adds.normalize {n : Obj} {count : String → ℚ} {detail : String → List String → ℚ}
    (h : Adds leaf n count detail) : normalizeUsage n = some n := by
  rcases h.settled with rfl | ⟨i, o, t, hs⟩
  · rfl
  · exact hs.normalize

/-- Normalized usage adds up to itself. -/
theorem adds_normalized (h : IsUsage leaf u) : normalizeUsage u = some (normalized u) ∧
    Adds leaf (normalized u) (countOf (normalized u)) fun key =>
      numAt ((normalized u).get key) := by
  unfold normalized
  by_cases hne : u = []
  · rw [hne]
    exact ⟨rfl, Or.inl rfl, fun _ _ => rfl, fun _ _ _ => rfl⟩
  · obtain ⟨i, o, t, hn, hs⟩ := settle h hne
    rw [hn]
    exact ⟨rfl, Or.inr ⟨i, o, t, hs⟩, fun _ _ => rfl, fun _ _ _ => rfl⟩

/-- What merging returns. -/
theorem mergeUsage_eq {a b : Obj} (ha : normalizeUsage u = some a)
    (hb : normalizeUsage v = some b) :
    mergeUsage u v = some (if b = [] then a else if a = [] then b else joinUsage a b) := by
  unfold mergeUsage
  rw [ha, hb]
  simp only [Option.bind_eq_bind, Option.bind_some]
  split_ifs <;> rfl

/-- Merging adds. -/
theorem Adds.merge {a b : Obj} {c c' : String → ℚ} {d d' : String → List String → ℚ}
    (ha : Adds leaf a c d) (hb : Adds leaf b c' d') :
    Adds leaf (if b = [] then a else if a = [] then b else joinUsage a b)
      (fun key => c key + c' key)
      fun key path => d key path + d' key path := by
  have hnil : ∀ {x : Obj} {c d}, Adds leaf x c d → x = [] →
      (∀ key ∈ usageSummableKeys, c key = 0) ∧ ∀ key ∈ usageDetailKeys, ∀ path, d key path = 0 := by
    rintro x c d ⟨-, hc, hd⟩ rfl
    refine ⟨fun key hkey => (hc key hkey).symm, fun key hkey path => ?_⟩
    rw [← hd key hkey path]
    exact numAt_null path
  split_ifs with hbnil hanil
  · obtain ⟨hc, hd⟩ := hnil hb hbnil
    refine ⟨ha.settled, fun key hkey => ?_, fun key hkey path => ?_⟩
    · rw [ha.count key hkey, hc key hkey, add_zero]
    · rw [ha.detail key hkey, hd key hkey, add_zero]
  · obtain ⟨hc, hd⟩ := hnil ha hanil
    refine ⟨hb.settled, fun key hkey => ?_, fun key hkey path => ?_⟩
    · rw [hb.count key hkey, hc key hkey, zero_add]
    · rw [hb.detail key hkey, hd key hkey, zero_add]
  · obtain ⟨i, o, t, has⟩ := ha.settled.resolve_left hanil
    obtain ⟨i', o', t', hbs⟩ := hb.settled.resolve_left hbnil
    refine ⟨Or.inr ⟨_, _, _, has.join hbs⟩, fun key hkey => ?_, fun key hkey path => ?_⟩
    · rw [(count_joinUsage has.toIsUsage hbs.toIsUsage hkey).2, ha.count key hkey,
        hb.count key hkey]
    · rw [(details_joinUsage has.toIsUsage hbs.toIsUsage hkey).2, ha.detail key hkey,
        hb.detail key hkey]

/-- The counts and details of a list of usages. -/
def countSum (us : List Obj) (key : String) : ℚ := (us.map fun u => countOf (normalized u) key).sum

def detailSum (us : List Obj) (key : String) (path : List String) : ℚ :=
  (us.map fun u => numAt ((normalized u).get key) path).sum

/-- In any bracketing the sums of the list come out. -/
theorem Merging.adds (m : Merging) (h : ∀ u ∈ m.usages, IsUsage leaf u) : ∃ r n, m.merge = some r ∧
    normalizeUsage r = some n ∧ (∀ x y, m = .both x y → n = r) ∧
      Adds leaf n (countSum m.usages) (detailSum m.usages) := by
  induction m with
  | one u =>
      obtain ⟨hn, hadds⟩ := adds_normalized (h u (List.mem_singleton_self u))
      refine ⟨u, normalized u, rfl, hn, fun _ _ hm => (by cases hm), hadds.settled, fun key _ => ?_,
        fun key _ path => ?_⟩
      · simp [countSum, Merging.usages]
      · simp [detailSum, Merging.usages]
  | both x y ihx ihy =>
      obtain ⟨a, n, ha, hn, -, hna⟩ := ihx fun u hu => h u (List.mem_append_left _ hu)
      obtain ⟨b, n', hb, hn', -, hnb⟩ := ihy fun u hu => h u (List.mem_append_right _ hu)
      have hmerged := hna.merge hnb
      refine ⟨_, _, ?_, hmerged.normalize, fun _ _ _ => rfl, hmerged.settled, fun key hkey => ?_,
        fun key hkey path => ?_⟩
      · rw [Merging.merge, ha, hb]
        exact mergeUsage_eq hn hn'
      · rw [hmerged.count key hkey]
        simp [countSum, Merging.usages]
      · rw [hmerged.detail key hkey]
        simp [detailSum, Merging.usages]

/-- The same counts and details. -/
def SameUsage (r r' : Obj) : Prop :=
  (∀ key ∈ usageSummableKeys, countOf r key = countOf r' key) ∧
    ∀ key ∈ usageDetailKeys, ∀ path, numAt (r.get key) path = numAt (r'.get key) path

/-- Normalising is idempotent, the empty usage is neutral, merging is associative, and any
bracketing of a list has the sums of its normalised usages. -/
theorem usage_merging (leaf : List String → Prop) :
    (∀ u, IsUsage leaf u → ∃ n, normalizeUsage u = some n ∧ normalizeUsage n = some n) ∧
    (∀ u, IsUsage leaf u → mergeUsage [] u = normalizeUsage u ∧
      mergeUsage u [] = normalizeUsage u) ∧
    (∀ a b c, IsUsage leaf a → IsUsage leaf b → IsUsage leaf c → ∃ l r,
      ((mergeUsage a b).bind fun ab => mergeUsage ab c) = some l ∧
        ((mergeUsage b c).bind fun bc => mergeUsage a bc) = some r ∧ SameUsage l r) ∧
    ∀ m : Merging, (∀ u ∈ m.usages, IsUsage leaf u) → ∃ r n, m.merge = some r ∧
      normalizeUsage r = some n ∧ (∀ x y, m = .both x y → n = r) ∧
      (∀ key ∈ usageSummableKeys,
        countOf n key = (m.usages.map fun u => countOf (normalized u) key).sum) ∧
      ∀ key ∈ usageDetailKeys, ∀ path,
        numAt (n.get key) path =
          (m.usages.map fun u => numAt ((normalized u).get key) path).sum := by
  refine ⟨fun u hu => ?_, fun u hu => ?_, fun a b c ha hb hc => ?_, fun m hm => ?_⟩
  · obtain ⟨hn, hadds⟩ := adds_normalized hu
    exact ⟨_, hn, hadds.normalize⟩
  · obtain ⟨hn, -⟩ := adds_normalized hu
    have hnil : normalizeUsage [] = some [] := rfl
    rw [mergeUsage_eq hnil hn, mergeUsage_eq hn hnil, hn]
    refine ⟨?_, rfl⟩
    by_cases h : normalized u = []
    · rw [if_pos h, h]
    · rw [if_neg h, if_pos rfl]
  · have hleaves : ∀ u ∈ [a, b, c], IsUsage leaf u := by
      intro u hu
      simp only [List.mem_cons, List.not_mem_nil, or_false] at hu
      rcases hu with rfl | rfl | rfl <;> assumption
    obtain ⟨l, n, hl, -, hlast, -, hcount, hdetail⟩ :=
      Merging.adds (.both (.both (.one a) (.one b)) (.one c)) hleaves
    obtain ⟨r, n', hr, -, hlast', -, hcount', hdetail'⟩ :=
      Merging.adds (.both (.one a) (.both (.one b) (.one c))) hleaves
    obtain rfl := hlast _ _ rfl
    obtain rfl := hlast' _ _ rfl
    refine ⟨n, n', hl, hr, fun key hkey => ?_, fun key hkey path => ?_⟩
    · rw [hcount key hkey, hcount' key hkey]
      rfl
    · rw [hdetail key hkey, hdetail' key hkey]
      rfl
  · obtain ⟨r, n, hr, hn, hlast, hadds⟩ := m.adds hm
    exact ⟨r, n, hr, hn, hlast, hadds.count, hadds.detail⟩

/-- Three tokens in, one of them cached, and two out. -/
def cachedUsage : Obj :=
  [("prompt_tokens", .num 3), ("completion_tokens", .num 2),
    ("prompt_tokens_details", .obj [("cached_tokens", .num 1)])]

/-- The example is usage. -/
theorem cachedUsage_isUsage : IsUsage (fun path => path.length = 2) cachedUsage := by
  have hcounts : ∀ key ∈ usageCountKeys, cachedUsage.lookup key = none ∨
      cachedUsage.lookup key = some (.num 3) ∨ cachedUsage.lookup key = some (.num 2) := by decide
  have hdetails : ∀ key ∈ usageDetailKeys, cachedUsage.lookup key = none ∨
      key = "prompt_tokens_details" := by decide
  refine ⟨by decide, fun key hkey => ?_, fun key hkey => (hdetails key hkey).imp_right ?_⟩
  · rcases hcounts key hkey with h | h | h
    · exact Or.inl h
    · exact Or.inr ⟨3, h⟩
    · exact Or.inr ⟨2, h⟩
  · rintro rfl
    refine ⟨_, rfl, .map _ _ (by decide) fun k v hk => ?_⟩
    obtain ⟨rfl, rfl⟩ : k = "cached_tokens" ∧ v = .num ((1 : ℕ) : ℚ) := by
      rw [Assoc.lookup_cons] at hk
      split_ifs at hk with h
      · exact ⟨h, (Option.some.inj hk).symm⟩
      · cases hk
    exact .number _ 1 rfl

/-- Twice the same usage. -/
theorem usage_merging_cached : ∃ r, mergeUsage cachedUsage cachedUsage = some r ∧
    countOf r "input_tokens" = 6 ∧ numAt (r.get "prompt_tokens_details") ["cached_tokens"] = 2 := by
  obtain ⟨-, -, -, hmerging⟩ := usage_merging fun path => path.length = 2
  obtain ⟨r, n, hr, -, hlast, hcount, hdetail⟩ :=
    hmerging (.both (.one cachedUsage) (.one cachedUsage))
      (by simp [Merging.usages, cachedUsage_isUsage])
  obtain rfl := hlast _ _ rfl
  refine ⟨n, hr, ?_, ?_⟩
  · rw [hcount _ (by decide)]
    decide +kernel
  · rw [hdetail _ (by decide)]
    decide +kernel

end Merge

end OpenWebUI.Chat
