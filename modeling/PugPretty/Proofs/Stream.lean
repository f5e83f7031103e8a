import PugPretty.AttributeOrder

/-!
# Well-formed streams

A lexer writes attributes only between the two tokens of their list and ends the stream at most once.
Sorting the attributes keeps that: `map_fixed_arrange` says that every token but an attribute stays
where it is, and `WellFormed.arrange` that the sorted stream is well formed if the given one is.
-/

namespace PugPretty

/-- Whether attributes stand only between the two tokens of a list, and every list is closed. The
first argument tells whether a list is open before the tokens. -/
def enclosed : Bool → List Token → Bool
  | inList, [] => !inList
  | inList, t :: ts =>
    match t.kind with
    | .startAttributes => !inList && enclosed true ts
    | .attr _ => inList && enclosed true ts
    | .endAttributes => inList && enclosed false ts
    | _ => !inList && enclosed false ts

def Kind.insideList : Kind → Bool
  | attr _ | endAttributes => true
  | _ => false

def Kind.leavesOpen : Kind → Bool
  | startAttributes | attr _ => true
  | _ => false

theorem enclosed_cons {inList : Bool} {t : Token} {ts : List Token} :
    enclosed inList (t :: ts) = true ↔
      inList = t.kind.insideList ∧ enclosed t.kind.leavesOpen ts = true := by
  rw [enclosed]
  cases t.kind <;> simp [Kind.insideList, Kind.leavesOpen]

theorem enclosed_before {t : Token} (ht : t.kind.insideList = false) (rest : List Token) :
    ∀ (inList : Bool) (done : List Token), enclosed inList (done ++ t :: rest) = true →
      enclosed inList done = true
  | inList, [], h => by
    rw [List.nil_append, enclosed_cons, ht] at h
    rw [h.1]; rfl
  | inList, u :: done, h => by
    rw [List.cons_append, enclosed_cons] at h
    exact enclosed_cons.2 ⟨h.1, enclosed_before ht rest _ done h.2⟩

theorem enclosed_append {rest : List Token} : ∀ {inList : Bool} {done : List Token},
    enclosed inList done = true → enclosed inList (done ++ rest) = enclosed false rest
  | inList, [], h => by
    obtain rfl : inList = false := by simpa [enclosed] using h
    rfl
  | inList, t :: done, h => by
    obtain ⟨hi, hd⟩ := enclosed_cons.1 h
    rw [List.cons_append, Bool.eq_iff_iff, enclosed_cons, enclosed_append hd]
    exact and_iff_right hi

structure WellFormed (ts : List Token) : Prop where
  enclosed : enclosed false ts = true
  eos_last : ∀ t ∈ ts.dropLast, t.kind ≠ .eos

instance (ts : List Token) : Decidable (WellFormed ts) :=
  decidable_of_iff (enclosed false ts = true ∧ ∀ t ∈ ts.dropLast, t.kind ≠ .eos)
    ⟨fun h => ⟨h.1, h.2⟩, fun h => ⟨h.1, h.2⟩⟩

/-! ## The end of a stream -/

theorem WellFormed.ne_eos {done more : List Token} {t : Token} (h : WellFormed (done ++ t :: more)) :
    ∀ u ∈ done, u.kind ≠ .eos := fun u hu => by
  refine h.eos_last u ?_
  rw [List.dropLast_append_of_ne_nil (List.cons_ne_nil t more)]
  exact List.mem_append_left _ hu

theorem enclosed_of_append_eos {e : Token} (he : e.kind = .eos) :
    ∀ (k : Bool) (ts : List Token), enclosed k (ts ++ [e]) = true → enclosed k ts = true
  | k, [], h => by simpa [enclosed, he] using h
  | k, t :: ts, h => by
    rw [List.cons_append, enclosed] at h
    rw [enclosed]
    split at h <;> simp only [Bool.and_eq_true] at h ⊢ <;>
      exact ⟨h.1, enclosed_of_append_eos he _ ts h.2⟩

theorem WellFormed.exists_body {ts : List Token} (h : WellFormed ts) :
    ∃ body tail, ts = body ++ tail ∧ PugPretty.enclosed false body = true ∧
      (∀ t ∈ body, t.kind ≠ .eos) ∧ (tail = [] ∨ ∃ e, tail = [e] ∧ e.kind = .eos) := by
  rcases List.eq_nil_or_concat ts with rfl | ⟨body, e, rfl⟩
  · exact ⟨[], [], rfl, rfl, by simp, .inl rfl⟩
  rw [List.concat_eq_append] at h ⊢
  have hb : ∀ t ∈ body, t.kind ≠ .eos := by simpa using h.eos_last
  by_cases he : e.kind = .eos
  · exact ⟨body, [e], rfl, enclosed_of_append_eos he _ _ h.enclosed, hb, .inr ⟨e, rfl, he⟩⟩
  · refine ⟨body ++ [e], [], by simp, h.enclosed, ?_, .inl rfl⟩
    intro t ht
    rcases List.mem_append.1 ht with ht | ht
    · exact hb t ht
    · rw [List.mem_singleton.1 ht]; exact he

theorem exists_rest_of_body {body tail done more : List Token} {t : Token}
    (h : body ++ tail = done ++ t :: more) (ht : tail = [] ∨ ∃ e, tail = [e] ∧ e.kind = .eos)
    (hk : t.kind ≠ .eos) : ∃ rest, body = done ++ t :: rest ∧ more = rest ++ tail := by
  rcases ht with rfl | ⟨e, rfl, he⟩
  · exact ⟨more, by simpa using h, by simp⟩
  rcases List.eq_nil_or_concat more with rfl | ⟨rest, u, rfl⟩
  · obtain ⟨-, hu⟩ := List.append_inj' h rfl
    rw [← (List.cons.inj hu).1] at hk
    exact absurd he hk
  · rw [List.concat_eq_append, ← List.cons_append, ← List.append_assoc] at h
    obtain ⟨hb, hu⟩ := List.append_inj' h rfl
    exact ⟨rest, hb, by rw [List.concat_eq_append, hu]⟩

/-! ## Sorting -/

def Token.fixed? (t : Token) : Option Token :=
  match t.kind with
  | .attr _ => none
  | _ => some t

theorem Token.fixed?_eq_some {t u : Token} (h : t.fixed? = some u) : t = u := by
  unfold Token.fixed? at h
  split at h
  · cases h
  · exact Option.some.inj h

theorem Token.fixed?_eq_none {t : Token} (h : t.fixed? = none) : ∃ a, t.kind = .attr a := by
  unfold Token.fixed? at h
  split at h
  · next a ha => exact ⟨a, ha⟩
  · cases h

/-- The same tokens in the same places, but other attributes where there are attributes. -/
inductive Rearranged : List Token → List Token → Prop
  | nil : Rearranged [] []
  | same (t : Token) {ts us : List Token} : Rearranged ts us → Rearranged (t :: ts) (t :: us)
  | attr {t u : Token} {a b : Attribute} {ts us : List Token} : t.kind = .attr a → u.kind = .attr b →
      Rearranged ts us → Rearranged (t :: ts) (u :: us)

theorem rearranged_of_map_fixed : ∀ {ts us : List Token},
    ts.map Token.fixed? = us.map Token.fixed? → Rearranged ts us
  | [], [], _ => .nil
  | [], u :: us, h => by cases h
  | t :: ts, [], h => by cases h
  | t :: ts, u :: us, h => by
    simp only [List.map_cons, List.cons.injEq] at h
    have hr := rearranged_of_map_fixed h.2
    cases hu : u.fixed? with
    | some v =>
      obtain rfl : t = u :=
        (Token.fixed?_eq_some (h.1.trans hu)).trans (Token.fixed?_eq_some hu).symm
      exact .same t hr
    | none =>
      obtain ⟨a, ha⟩ := Token.fixed?_eq_none (h.1.trans hu)
      obtain ⟨b, hb⟩ := Token.fixed?_eq_none hu
      exact .attr ha hb hr

theorem Rearranged.enclosed_eq {ts us : List Token} (h : Rearranged ts us) :
    ∀ k, enclosed k ts = enclosed k us := by
  induction h with
  | nil => exact fun _ => rfl
  | same t _ ih => intro k; simp only [enclosed, ih]
  | attr ht hu _ ih => intro k; simp only [enclosed, ht, hu, ih]

namespace AttributeOrder

theorem fixed?_of_lessKeyed {mode : NameOrder} (ord : AttributeOrder) {s t : Token}
    (h : lessKeyed mode (ord.keyed s) (ord.keyed t) = true) : s.fixed? = none ∧ t.fixed? = none := by
  unfold lessKeyed keyed at h
  unfold Token.fixed?
  constructor <;> split <;> simp_all

theorem map_fixed_insertBy (mode : NameOrder) (ord : AttributeOrder) (t : Token) (ts : List Token) :
    ∃ us : List Token, insertBy (lessKeyed mode) (ord.keyed t) (ts.map ord.keyed) = us.map ord.keyed ∧
      us.map Token.fixed? = (t :: ts).map Token.fixed? := by
  induction ts with
  | nil => exact ⟨[t], rfl, rfl⟩
  | cons s ts ih =>
    rw [List.map_cons, insertBy]
    split
    · next h =>
      -- only attributes change places, and they all look the same here
      obtain ⟨us, hu, hf⟩ := ih
      obtain ⟨hs, ht⟩ := fixed?_of_lessKeyed ord h
      exact ⟨s :: us, by rw [hu, List.map_cons], by simp [hf, hs, ht]⟩
    · exact ⟨t :: s :: ts, rfl, rfl⟩

theorem map_fixed_sortBy (mode : NameOrder) (ord : AttributeOrder) (ts : List Token) :
    ∃ us : List Token, sortBy (lessKeyed mode) (ts.map ord.keyed) = us.map ord.keyed ∧
      us.map Token.fixed? = ts.map Token.fixed? := by
  induction ts with
  | nil => exact ⟨[], rfl, rfl⟩
  | cons t ts ih =>
    obtain ⟨us, hu, hf⟩ := ih
    obtain ⟨vs, hv, hg⟩ := map_fixed_insertBy mode ord t us
    refine ⟨vs, ?_, by rw [hg, List.map_cons, List.map_cons, hf]⟩
    rw [sortBy] at hu
    rw [List.map_cons, sortBy, List.foldr_cons, hu, hv]

theorem snd_keyed (ord : AttributeOrder) (t : Token) : (ord.keyed t).2 = t := by
  unfold keyed; split <;> rfl

theorem map_fixed_arrange (ord : AttributeOrder) (ts : List Token) :
    (ord.arrange ts).map Token.fixed? = ts.map Token.fixed? := by
  unfold arrange
  split
  · rfl
  · obtain ⟨us, hu, hf⟩ := map_fixed_sortBy ord.mode ord ts
    rw [hu, ← hf]
    simp [snd_keyed, Function.comp_def]

end AttributeOrder

theorem rearranged_arrange (ord : AttributeOrder) (ts : List Token) :
    Rearranged (ord.arrange ts) ts := rearranged_of_map_fixed (ord.map_fixed_arrange ts)

theorem enclosed_arrange (ord : AttributeOrder) {ts : List Token} (h : enclosed false ts = true) :
    enclosed false (ord.arrange ts) = true :=
  ((rearranged_arrange ord ts).enclosed_eq false).trans h

theorem WellFormed.arrange {ts : List Token} (h : WellFormed ts) (ord : AttributeOrder) :
    WellFormed (ord.arrange ts) := by
  have hf := ord.map_fixed_arrange ts
  refine ⟨enclosed_arrange ord h.enclosed, fun t ht he => ?_⟩
  have hm : some t ∈ ts.dropLast.map Token.fixed? := by
    rw [List.map_dropLast, ← hf, ← List.map_dropLast]
    exact List.mem_map.2 ⟨t, ht, by simp [Token.fixed?, he]⟩
  obtain ⟨u, hu, hut⟩ := List.mem_map.1 hm
  exact h.eos_last u hu (Token.fixed?_eq_some hut ▸ he)

end PugPretty
