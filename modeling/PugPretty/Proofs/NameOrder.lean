import PugPretty.Proofs.SortedRuns

/-!
# The order of names

The first pattern that matches a name gives it its zone, and a leading pattern counts before any
trailing one. The zones stand one behind the other; inside an outer zone only the first match counts,
and in the middle only the name. So `compare` is a total preorder of all names, however the patterns
overlap (`compare_totalPreorder`).
-/

namespace PugPretty

/-! ## First matches -/

def FirstMatch (patterns : List (String → Bool)) (name : String) (i : Nat) : Prop :=
  (∃ p, patterns[i]? = some p ∧ p name = true) ∧
    ∀ j < i, ∀ p, patterns[j]? = some p → p name = false

def Unmatched (patterns : List (String → Bool)) (name : String) : Prop :=
  ∀ p ∈ patterns, p name = false

section
variable {patterns : List (String → Bool)} {name : String}

theorem findIdx?_eq_some_iff_firstMatch {i : Nat} :
    patterns.findIdx? (· name) = some i ↔ FirstMatch patterns name i := by
  rw [List.findIdx?_eq_some_iff_getElem]
  constructor
  · rintro ⟨hi, hp, hbefore⟩
    refine ⟨⟨patterns[i], List.getElem?_eq_getElem hi, hp⟩, fun j hj p hget => ?_⟩
    obtain ⟨hlt, rfl⟩ := List.getElem?_eq_some_iff.1 hget
    simpa using hbefore j hj
  · rintro ⟨⟨p, hget, hp⟩, hbefore⟩
    obtain ⟨hi, rfl⟩ := List.getElem?_eq_some_iff.1 hget
    refine ⟨hi, hp, fun j hj => ?_⟩
    simpa using hbefore j hj _ (List.getElem?_eq_getElem (hj.trans hi))

theorem findIdx?_eq_none_iff_unmatched :
    patterns.findIdx? (· name) = none ↔ Unmatched patterns name := by
  rw [List.findIdx?_eq_none_iff]
  rfl

end

/-! ## Zones -/

inductive Zone.Before : Zone → Zone → Prop
  | leading {i j : Nat} (h : i < j) : Before (.leading i) (.leading j)
  | leading_middle (i : Nat) : Before (.leading i) .middle
  | leading_trailing (i j : Nat) : Before (.leading i) (.trailing j)
  | middle_trailing (j : Nat) : Before .middle (.trailing j)
  | trailing {i j : Nat} (h : i < j) : Before (.trailing i) (.trailing j)

theorem Zone.Before.compare_eq {x y : Zone} (h : x.Before y) : x.compare y = .lt := by
  cases h with
  | leading h => exact Nat.compare_eq_lt.2 h
  | leading_middle => rfl
  | leading_trailing => rfl
  | middle_trailing => rfl
  | trailing h => exact Nat.compare_eq_lt.2 h

theorem Zone.Before.not_middle {x y : Zone} (h : x.Before y) : x ≠ .middle ∨ y ≠ .middle := by
  cases h <;> simp

namespace AttributeOrder

variable {ord : AttributeOrder}

/-- Trailing patterns do not matter to a name that a leading one matches. -/
inductive Belongs (ord : AttributeOrder) (name : String) : Zone → Prop
  | leading {i : Nat} (h : FirstMatch ord.leading name i) : Belongs ord name (.leading i)
  | middle (hl : Unmatched ord.leading name) (ht : Unmatched ord.trailing name) :
    Belongs ord name .middle
  | trailing {i : Nat} (hl : Unmatched ord.leading name) (ht : FirstMatch ord.trailing name i) :
    Belongs ord name (.trailing i)

theorem Belongs.zone_eq {name : String} {z : Zone} (h : ord.Belongs name z) : ord.zone name = z := by
  unfold zone
  cases h with
  | leading h => rw [findIdx?_eq_some_iff_firstMatch.2 h]
  | middle hl ht =>
    rw [findIdx?_eq_none_iff_unmatched.2 hl, findIdx?_eq_none_iff_unmatched.2 ht]
  | trailing hl ht =>
    rw [findIdx?_eq_none_iff_unmatched.2 hl, findIdx?_eq_some_iff_firstMatch.2 ht]

theorem belongs_zone (ord : AttributeOrder) (name : String) : ord.Belongs name (ord.zone name) := by
  unfold zone
  cases hl : ord.leading.findIdx? (· name) with
  | some i => exact .leading (findIdx?_eq_some_iff_firstMatch.1 hl)
  | none =>
    have hl := findIdx?_eq_none_iff_unmatched.1 hl
    cases ht : ord.trailing.findIdx? (· name) with
    | some i => exact .trailing hl (findIdx?_eq_some_iff_firstMatch.1 ht)
    | none => exact .middle hl (findIdx?_eq_none_iff_unmatched.1 ht)

theorem zone_eq_iff {name : String} {z : Zone} : ord.zone name = z ↔ ord.Belongs name z :=
  ⟨fun h => h ▸ ord.belongs_zone name, Belongs.zone_eq⟩

theorem Key.compare_of_outer (mode : NameOrder) {x y : Zone} (h : x ≠ .middle ∨ y ≠ .middle)
    (a b : String) : Key.compare mode (x, a) (y, b) = x.compare y := by
  cases x with
  | middle =>
    cases y with
    | middle => simp at h
    | _ => rfl
  | _ => rfl

theorem compare_of_before {a b : String} {x y : Zone} (ha : ord.Belongs a x) (hb : ord.Belongs b y)
    (h : x.Before y) : ord.compare a b = .lt := by
  rw [compare, key, key, ha.zone_eq, hb.zone_eq, Key.compare_of_outer ord.mode h.not_middle]
  exact h.compare_eq

theorem compare_of_same {a b : String} {x : Zone} (ha : ord.Belongs a x) (hb : ord.Belongs b x) :
    ord.compare a b = if x = .middle then compareMiddle ord.mode a b else .eq := by
  rw [compare, key, key, ha.zone_eq, hb.zone_eq]
  split
  · next hx => subst hx; rfl
  · next hx =>
    rw [Key.compare_of_outer ord.mode (.inl hx)]
    simp [Zone.compare]

end AttributeOrder

/-- **Names are ordered by their zones, and all of them consistently.** -/
theorem compare_totalPreorder (ord : AttributeOrder) :
    (∀ a, ord.compare a a = .eq) ∧
    (∀ a b, ord.compare b a = (ord.compare a b).swap) ∧
    (∀ a b c o, ord.compare a b = o → ord.compare b c = o → ord.compare a c = o) ∧
    (∀ a b c, ord.compare a b = .eq → ord.compare a c = ord.compare b c) ∧
    (∀ a, ∃! x, ord.Belongs a x) ∧
    (∀ a b x y, ord.Belongs a x → ord.Belongs b y → x.Before y → ord.compare a b = .lt) ∧
    (∀ a b x, ord.Belongs a x → ord.Belongs b x →
      ord.compare a b = if x = .middle then AttributeOrder.compareMiddle ord.mode a b else .eq) := by
  refine ⟨fun _ => Std.ReflCmp.compare_self, fun _ _ => Std.OrientedCmp.eq_swap, ?_, ?_, ?_,
    fun _ _ _ _ => AttributeOrder.compare_of_before, fun _ _ _ => AttributeOrder.compare_of_same⟩
  · intro a b c o hab hbc
    cases o with
    | lt => exact Std.TransCmp.lt_trans hab hbc
    | eq => exact Std.TransCmp.eq_trans hab hbc
    | gt => exact Std.TransCmp.gt_trans hab hbc
  · intro a b c hab
    exact Std.TransCmp.congr_left hab
  · intro a
    exact ⟨ord.zone a, ord.belongs_zone a, fun x hx => hx.zone_eq.symm⟩

def overlapping : AttributeOrder where
  mode := .descending
  leading := [fun name => name == "id" || name == "x", fun name => name == "x" || name == "y"]
  trailing := [(· == "x"), fun name => name == "a" || name == "y", fun name => name == "a" || name == "b"]

theorem compare_overlapping :
    overlapping.Belongs "x" (.leading 0) ∧ overlapping.compare "x" "id" = .eq ∧
      overlapping.compare "x" "y" = .lt ∧ overlapping.compare "id" "y" = .lt ∧
      overlapping.compare "y" "c" = .lt ∧ overlapping.compare "d" "c" = .lt ∧
      overlapping.compare "c" "a" = .lt ∧ overlapping.compare "a" "b" = .lt ∧
      overlapping.compare "y" "b" = .lt := by
  have hx : overlapping.Belongs "x" (.leading 0) := AttributeOrder.zone_eq_iff.1 rfl
  have hid : overlapping.Belongs "id" (.leading 0) := AttributeOrder.zone_eq_iff.1 rfl
  have hy : overlapping.Belongs "y" (.leading 1) := AttributeOrder.zone_eq_iff.1 rfl
  have hc : overlapping.Belongs "c" .middle := AttributeOrder.zone_eq_iff.1 rfl
  have hd : overlapping.Belongs "d" .middle := AttributeOrder.zone_eq_iff.1 rfl
  have ha : overlapping.Belongs "a" (.trailing 1) := AttributeOrder.zone_eq_iff.1 rfl
  have hb : overlapping.Belongs "b" (.trailing 2) := AttributeOrder.zone_eq_iff.1 rfl
  obtain ⟨-, -, htrans, hcongr, -, hbefore, hsame⟩ := compare_totalPreorder overlapping
  have hxid := hsame _ _ _ hx hid
  have hxy := hbefore _ _ _ _ hx hy (.leading (by decide))
  have hyc := hbefore _ _ _ _ hy hc (.leading_middle 1)
  have hca := hbefore _ _ _ _ hc ha (.middle_trailing 1)
  have hab := hbefore _ _ _ _ ha hb (.trailing (by decide))
  refine ⟨hx, hxid, hxy, (hcongr _ _ _ hxid).symm.trans hxy, hyc, (hsame _ _ _ hd hc).trans rfl,
    hca, hab, htrans _ _ _ _ hyc (htrans _ _ _ _ hca hab)⟩

end PugPretty
