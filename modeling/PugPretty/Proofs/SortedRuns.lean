import Mathlib.Data.List.Chain
import Mathlib.Data.List.Sort
import Mathlib.Order.Compare
import PugPretty.Proofs.AttributeLists

/-!
# Sorted runs

A stream is sorted by inserting its tokens one after another, the last one first. Nothing is put past
a token that is no attribute, so the runs of attributes are sorted each for itself
(`arrange_append_cons`). Inside a run the names make up a total preorder, whatever the patterns are,
and the sort is stable (`arrange_sortsRuns`).
-/

namespace PugPretty

/-! ## Insertion -/

section
variable {α : Type} {lt : α → α → Bool}

theorem insertBy_eq_orderedInsert (lt : α → α → Bool) (a : α) (as : List α) :
    insertBy lt a as = as.orderedInsert (fun a b => lt b a = false) a := by
  induction as with
  | nil => rfl
  | cons b as ih =>
    rw [insertBy, List.orderedInsert_cons, ih]
    cases lt b a <;> rfl

theorem sortBy_eq_insertionSort (lt : α → α → Bool) (as : List α) :
    sortBy lt as = as.insertionSort (fun a b => lt b a = false) := by
  induction as with
  | nil => rfl
  | cons a as ih =>
    rw [sortBy, List.foldr_cons, ← sortBy, ih, insertBy_eq_orderedInsert, List.insertionSort_cons]

end

section
variable {α : Type} {r : α → α → Prop} [DecidableRel r]

theorem orderedInsert_append_cons {a n : α} (h : r a n) (as bs : List α) :
    (as ++ n :: bs).orderedInsert r a = as.orderedInsert r a ++ n :: bs := by
  induction as with
  | nil => rw [List.nil_append, List.orderedInsert_cons_of_le r _ h]; rfl
  | cons b as ih =>
    rw [List.cons_append, List.orderedInsert_cons, List.orderedInsert_cons, ih]
    split <;> rfl

/-- What may stand on both sides of everything stays where it is and keeps the others apart. -/
theorem insertionSort_append_cons {n : α} (hn : ∀ a, r a n ∧ r n a) (as bs : List α) :
    (as ++ n :: bs).insertionSort r = as.insertionSort r ++ n :: bs.insertionSort r := by
  induction as with
  | nil =>
    rw [List.nil_append, List.insertionSort_cons]
    cases bs.insertionSort r with
    | nil => rfl
    | cons b bs => exact List.orderedInsert_cons_of_le r _ (hn b).2
  | cons a as ih =>
    rw [List.cons_append, List.insertionSort_cons, ih, orderedInsert_append_cons (hn a).1,
      List.insertionSort_cons]

/-! Neighbours are in order even if the order is not transitive. -/

theorem isChain_orderedInsert [Std.Total r] (a : α) {as : List α} (h : as.IsChain r) :
    (as.orderedInsert r a).IsChain r := by
  induction as with
  | nil => exact List.isChain_singleton a
  | cons b as ih =>
    rw [List.orderedInsert_cons]
    split
    · next hab => exact h.cons_cons hab
    · next hab =>
      have hba : r b a := (Std.Total.total (r := r) a b).resolve_left hab
      have hi := ih h.tail
      cases as with
      | nil => exact (List.isChain_singleton a).cons_cons hba
      | cons c as =>
        rw [List.orderedInsert_cons] at hi ⊢
        split at hi
        · next hac => rw [if_pos hac]; exact hi.cons_cons hba
        · next hac => rw [if_neg hac]; exact hi.cons_cons (List.isChain_cons_cons.1 h).1

theorem isChain_insertionSort [Std.Total r] (as : List α) : (as.insertionSort r).IsChain r := by
  induction as with
  | nil => exact List.isChain_nil
  | cons a as ih => exact isChain_orderedInsert a ih

theorem insertionSort_of_isChain {as : List α} (h : as.IsChain r) : as.insertionSort r = as := by
  induction as with
  | nil => rfl
  | cons a as ih =>
    rw [List.insertionSort_cons, ih h.tail]
    cases as with
    | nil => rfl
    | cons b as => exact List.orderedInsert_cons_of_le r _ (List.isChain_cons_cons.1 h).1

theorem insertionSort_congr {s : α → α → Prop} [DecidableRel s] {as : List α}
    (h : ∀ a ∈ as, ∀ b ∈ as, r a b ↔ s a b) : as.insertionSort r = as.insertionSort s := by
  have hm := List.map_insertionSort r s id as h
  rwa [List.map_id, List.map_id] at hm

/-- What is in order as it stands keeps its order. -/
theorem filter_insertionSort {p : α → Bool} {as : List α} (h : (as.filter p).Pairwise r) :
    (as.insertionSort r).filter p = as.filter p := by
  have hs := (List.sublist_insertionSort h List.filter_sublist).filter p
  simp only [List.filter_filter, Bool.and_self] at hs
  exact (hs.eq_of_length ((List.perm_insertionSort r as).filter p).length_eq.symm).symm

end

/-! ## The order of names -/

namespace AttributeOrder

/-- Names count for the order only in the middle zone. -/
def Key.middleName : Key → String
  | (.middle, name) => name
  | _ => ""

theorem Key.compare_eq (mode : NameOrder) :
    Key.compare mode =
      compareLex (compareOn fun k => k.1.rank) (compareLex (compareOn fun k => k.1.place)
        fun k l => compareMiddle mode k.middleName l.middleName) := by
  funext ⟨x, a⟩ ⟨y, b⟩
  have he : compareMiddle mode "" "" = .eq := by cases mode <;> rfl
  cases x <;> cases y <;> first
    | rfl
    | simp [Key.compare, Zone.compare, Zone.rank, Zone.place, Key.middleName, compareLex, compareOn, he]

theorem transCmp_compareMiddle (mode : NameOrder) :
    Std.TransCmp fun k l : Key => compareMiddle mode k.middleName l.middleName := by
  cases mode with
  | asIs => exact { eq_swap := rfl, isLE_trans := fun _ _ => rfl }
  | ascending => exact inferInstanceAs (Std.TransCmp (compareOn Key.middleName))
  | descending =>
    exact inferInstanceAs (Std.TransCmp fun k l : Key => compareOn Key.middleName l k)

instance transCmp_keys (mode : NameOrder) : Std.TransCmp (Key.compare mode) := by
  have := transCmp_compareMiddle mode
  rw [Key.compare_eq]
  infer_instance

/-- The patterns may overlap in any way. -/
instance transCmp_compare (ord : AttributeOrder) : Std.TransCmp ord.compare where
  eq_swap := (transCmp_keys ord.mode).eq_swap
  isLE_trans := (transCmp_keys ord.mode).isLE_trans

theorem compare_of_isNoop {ord : AttributeOrder} (h : ord.isNoop = true) (a b : String) :
    ord.compare a b = .eq := by
  obtain ⟨mode, leading, trailing⟩ := ord
  simp only [isNoop, Bool.and_eq_true, beq_iff_eq, List.isEmpty_iff] at h
  obtain ⟨⟨rfl, rfl⟩, rfl⟩ := h
  rfl

end AttributeOrder

/-! ## The order of tokens -/

def Token.attributeName (t : Token) : String := (t.attribute?.map (·.name)).getD ""

structure IsRun (done run rest : List Token) : Prop where
  attributes : ∀ t ∈ run, t.attribute?.isSome = true
  last : ∀ t ∈ done.getLast?, t.attribute? = none
  head : ∀ t ∈ rest.head?, t.attribute? = none

namespace AttributeOrder

variable (ord : AttributeOrder)

def MayPrecede (t u : Token) : Prop := lessKeyed ord.mode (ord.keyed u) (ord.keyed t) = false

instance : DecidableRel ord.MayPrecede := fun _ _ => inferInstanceAs (Decidable (_ = false))

/-- As `MayPrecede`, but between all tokens by their names, so that it is transitive. -/
def NameLe (t u : Token) : Prop := (ord.compare t.attributeName u.attributeName).isLE = true

instance : DecidableRel ord.NameLe := fun _ _ => inferInstanceAs (Decidable (_ = true))

theorem keyed_of_attribute? {t : Token} {a : Attribute} (h : t.attribute? = some a) :
    ord.keyed t = (some (ord.key a.name), t) := by
  simp only [keyed, kind_of_attribute? h]

theorem keyed_of_stop {t : Token} (h : t.attribute? = none) : ord.keyed t = (none, t) := by
  unfold Token.attribute? at h
  unfold keyed
  split <;> simp_all

theorem mayPrecede_of_stop {t : Token} (h : t.attribute? = none) (u : Token) :
    ord.MayPrecede u t ∧ ord.MayPrecede t u := by
  unfold MayPrecede
  rw [ord.keyed_of_stop h]
  exact ⟨rfl, by unfold lessKeyed; cases (ord.keyed u).1 <;> rfl⟩

theorem mayPrecede_iff_nameLe {t u : Token} (ht : t.attribute?.isSome = true)
    (hu : u.attribute?.isSome = true) : ord.MayPrecede t u ↔ ord.NameLe t u := by
  obtain ⟨a, ha⟩ := Option.isSome_iff_exists.1 ht
  obtain ⟨b, hb⟩ := Option.isSome_iff_exists.1 hu
  have hc : ord.compare b.name a.name = (ord.compare a.name b.name).swap :=
    Std.OrientedCmp.eq_swap
  unfold MayPrecede NameLe Token.attributeName
  rw [ord.keyed_of_attribute? ha, ord.keyed_of_attribute? hb, ha, hb]
  show (ord.compare b.name a.name == .lt) = false ↔ (ord.compare a.name b.name).isLE = true
  rw [hc]
  cases ord.compare a.name b.name <;> decide

instance : Std.Total ord.NameLe where
  total t u := by
    have hc : ord.compare u.attributeName t.attributeName =
      (ord.compare t.attributeName u.attributeName).swap := Std.OrientedCmp.eq_swap
    unfold NameLe
    rw [hc]
    cases ord.compare t.attributeName u.attributeName <;> decide

instance : IsTrans Token ord.NameLe where
  trans _ _ _ := Std.TransCmp.isLE_trans

instance : Std.Total ord.MayPrecede where
  total t u := by
    by_cases ht : t.attribute? = none
    · exact .inl (ord.mayPrecede_of_stop ht u).2
    by_cases hu : u.attribute? = none
    · exact .inl (ord.mayPrecede_of_stop hu t).1
    rw [← ne_eq, Option.ne_none_iff_isSome] at ht hu
    rw [ord.mayPrecede_iff_nameLe ht hu, ord.mayPrecede_iff_nameLe hu ht]
    exact Std.Total.total t u

theorem mayPrecede_of_isNoop (h : ord.isNoop = true) (t u : Token) : ord.MayPrecede t u := by
  by_cases ht : t.attribute? = none
  · exact (ord.mayPrecede_of_stop ht u).2
  by_cases hu : u.attribute? = none
  · exact (ord.mayPrecede_of_stop hu t).1
  rw [← ne_eq, Option.ne_none_iff_isSome] at ht hu
  rw [ord.mayPrecede_iff_nameLe ht hu, NameLe, compare_of_isNoop h]
  rfl

theorem arrange_eq_insertionSort (ts : List Token) :
    ord.arrange ts = ts.insertionSort ord.MayPrecede := by
  unfold arrange
  split
  · next hn =>
    have hs := List.pairwise_of_forall (l := ts) (ord.mayPrecede_of_isNoop hn)
    exact hs.insertionSort_eq.symm
  · have hm := List.map_insertionSort ord.MayPrecede (fun s t => lessKeyed ord.mode t s = false)
      ord.keyed ts fun _ _ _ _ => Iff.rfl
    rw [sortBy_eq_insertionSort, ← hm, List.map_map]
    exact (List.map_congr_left fun t _ => ord.snd_keyed t).trans (List.map_id _)

/-! ## Runs -/

variable {ord}

theorem arrange_append_cons {t : Token} (ht : t.attribute? = none) (ts us : List Token) :
    ord.arrange (ts ++ t :: us) = ord.arrange ts ++ t :: ord.arrange us := by
  simp only [arrange_eq_insertionSort]
  exact insertionSort_append_cons (ord.mayPrecede_of_stop ht) ts us

variable (ord) in
theorem arrange_nil : ord.arrange [] = [] := arrange_eq_insertionSort ord []

variable (ord) in
theorem arrange_cons {t : Token} (ht : t.attribute? = none) (ts : List Token) :
    ord.arrange (t :: ts) = t :: ord.arrange ts := by
  rw [← List.nil_append (t :: ts), arrange_append_cons ht, arrange_nil, List.nil_append]

theorem arrange_append_of_last {ts : List Token} (h : ∀ t ∈ ts.getLast?, t.attribute? = none)
    (us : List Token) : ord.arrange (ts ++ us) = ord.arrange ts ++ ord.arrange us := by
  rcases List.eq_nil_or_concat ts with rfl | ⟨ts, t, rfl⟩
  · rw [arrange_nil]
    rfl
  rw [List.concat_eq_append] at h ⊢
  have ht : t.attribute? = none := h t (by simp)
  rw [List.append_assoc, List.singleton_append, arrange_append_cons ht, arrange_append_cons ht,
    arrange_nil, List.append_assoc, List.singleton_append]

theorem arrange_append_of_head {us : List Token} (h : ∀ t ∈ us.head?, t.attribute? = none)
    (ts : List Token) : ord.arrange (ts ++ us) = ord.arrange ts ++ ord.arrange us := by
  cases us with
  | nil => rw [arrange_nil, List.append_nil, List.append_nil]
  | cons u us =>
    have hu : u.attribute? = none := h u rfl
    rw [arrange_append_cons hu, ord.arrange_cons hu]

theorem arrange_run {run : List Token} (h : ∀ t ∈ run, t.attribute?.isSome = true) :
    ord.arrange run = run.insertionSort ord.NameLe := by
  rw [arrange_eq_insertionSort]
  exact insertionSort_congr fun t ht u hu => ord.mayPrecede_iff_nameLe (h t ht) (h u hu)

theorem pairwise_arrange {run : List Token} (h : ∀ t ∈ run, t.attribute?.isSome = true) :
    (ord.arrange run).Pairwise fun t u => ord.compare t.attributeName u.attributeName ≠ .gt := by
  rw [arrange_run h]
  refine (List.pairwise_insertionSort ord.NameLe run).imp fun hle hgt => ?_
  rw [NameLe, hgt] at hle
  cases hle

theorem filter_arrange {run : List Token} (h : ∀ t ∈ run, t.attribute?.isSome = true)
    (name : String) :
    (ord.arrange run).filter (fun t => ord.compare t.attributeName name == .eq) =
      run.filter fun t => ord.compare t.attributeName name == .eq := by
  rw [arrange_run h]
  refine filter_insertionSort (List.pairwise_of_forall_mem_list fun t ht u hu => ?_)
  have ht : ord.compare t.attributeName name = .eq := by simpa using (List.mem_filter.1 ht).2
  have hu : ord.compare u.attributeName name = .eq := by simpa using (List.mem_filter.1 hu).2
  show (ord.compare t.attributeName u.attributeName).isLE = true
  rw [Std.TransCmp.eq_trans ht (Std.OrientedCmp.eq_symm hu)]
  rfl

theorem arrange_arrange (ts : List Token) : ord.arrange (ord.arrange ts) = ord.arrange ts := by
  rw [arrange_eq_insertionSort, arrange_eq_insertionSort]
  exact insertionSort_of_isChain (isChain_insertionSort ts)

theorem length_arrange (ts : List Token) : (ord.arrange ts).length = ts.length := by
  rw [arrange_eq_insertionSort, List.length_insertionSort]

theorem getElem?_arrange {ts : List Token} {i : Nat} {t : Token} (hi : ts[i]? = some t)
    (ht : t.attribute? = none) : (ord.arrange ts)[i]? = some t := by
  have hfixed : t.fixed? = some t := by
    unfold Token.attribute? at ht
    unfold Token.fixed?
    split <;> simp_all
  have hm := congrArg (·[i]?) (ord.map_fixed_arrange ts)
  simp only [List.getElem?_map, hi, Option.map_some, hfixed] at hm
  obtain ⟨u, hu, hf⟩ := Option.map_eq_some_iff.1 hm
  rw [hu, Token.fixed?_eq_some hf]

end AttributeOrder

/-- **Every run of attributes is sorted for itself, and stably.** -/
theorem arrange_sortsRuns (ord : AttributeOrder) (ts : List Token) :
    (ord.arrange ts).length = ts.length ∧
    (∀ (i : Nat) (t : Token), ts[i]? = some t → t.attribute? = none →
      (ord.arrange ts)[i]? = some t) ∧
    (∀ done run rest, ts = done ++ run ++ rest → IsRun done run rest →
      ord.arrange ts = ord.arrange done ++ ord.arrange run ++ ord.arrange rest ∧
      (ord.arrange run).Perm run ∧
      (ord.arrange run).Pairwise (fun t u => ord.compare t.attributeName u.attributeName ≠ .gt) ∧
      ∀ name, (ord.arrange run).filter (fun t => ord.compare t.attributeName name == .eq) =
        run.filter fun t => ord.compare t.attributeName name == .eq) ∧
    ord.arrange (ord.arrange ts) = ord.arrange ts ∧
    (ord.isNoop = true → ord.arrange ts = ts ∧ ∀ a b, ord.compare a b = .eq) := by
  refine ⟨AttributeOrder.length_arrange ts, fun _ _ => AttributeOrder.getElem?_arrange, ?_,
    AttributeOrder.arrange_arrange ts, fun hn => ⟨if_pos hn, AttributeOrder.compare_of_isNoop hn⟩⟩
  rintro done run rest rfl h
  refine ⟨?_, ?_, AttributeOrder.pairwise_arrange h.attributes,
    AttributeOrder.filter_arrange h.attributes⟩
  · rw [AttributeOrder.arrange_append_of_head h.head, AttributeOrder.arrange_append_of_last h.last]
  · rw [AttributeOrder.arrange_eq_insertionSort]
    exact List.perm_insertionSort _ run

def twoLists : List Token :=
  [⟨.startAttributes, {}⟩, ⟨.attr ⟨"b", .flag true, true⟩, {}⟩, ⟨.attr ⟨"x", .flag true, true⟩, {}⟩,
    ⟨.attr ⟨"a", .flag true, true⟩, {}⟩, ⟨.attr ⟨"x", .flag false, true⟩, {}⟩, ⟨.endAttributes, {}⟩,
    ⟨.startAttributes, {}⟩, ⟨.attr ⟨"d", .flag true, true⟩, {}⟩, ⟨.attr ⟨"c", .flag true, true⟩, {}⟩,
    ⟨.endAttributes, {}⟩]

theorem arrange_twoLists :
    let ord : AttributeOrder :=
      { mode := .ascending, leading := [(· == "x")], trailing := [(· == "x"), (· == "a")] }
    let run := (twoLists.drop 1).take 4
    IsRun [⟨.startAttributes, {}⟩] run (twoLists.drop 5) ∧
      ord.arrange twoLists =
        ⟨.startAttributes, {}⟩ :: ord.arrange run ++ ord.arrange (twoLists.drop 5) ∧
      (ord.arrange run).filter (fun t => ord.compare t.attributeName "x" == .eq) =
        [⟨.attr ⟨"x", .flag true, true⟩, {}⟩, ⟨.attr ⟨"x", .flag false, true⟩, {}⟩] ∧
      (ord.arrange twoLists).map Token.attributeName =
        ["", "x", "x", "b", "a", "", "", "c", "d", ""] := by
  intro ord run
  have h : IsRun [⟨.startAttributes, {}⟩] run (twoLists.drop 5) :=
    ⟨by decide, by decide, by decide⟩
  obtain ⟨-, -, hruns, -⟩ := arrange_sortsRuns ord twoLists
  obtain ⟨hv, -, -, hstable⟩ := hruns _ _ _ rfl h
  exact ⟨h, hv, (hstable "x").trans (by decide), by decide⟩

end PugPretty
