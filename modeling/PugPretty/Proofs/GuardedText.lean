import PugPretty.Proofs.InertText

/-!
# Guarded text

A text is guarded if a backslash stands right in front of every opener in it. Making a text inert puts
these backslashes in, and one pass from the left takes them away again, one for each opener. Every
text has one guarded form, whatever backslashes and openers it holds (`inert_invertible`). The guarded
texts are those that a lexer reads as plain text, and the pass is how it reads them
(`plainReading?_eq_some_iff`).
-/

namespace PugPretty

open Text

namespace Text

def openers : List Text := [['#', '{'], ['#', '['], ['!', '{']]

def IsGuarded (t : Text) : Prop :=
  ∀ m ∈ openers, ∀ u v, t = u ++ m ++ v → u.getLast? = some '\\'

/-- A single pass from the left drops each backslash that stands right in front of an opener. -/
def unguarded : Text → Text
  | [] => []
  | c :: r => if c = '\\' ∧ ∃ m ∈ openers, m <+: r then unguarded r else c :: unguarded r

theorem opensInterpolation_iff_opener {t : Text} :
    opensInterpolation t = true ↔ ∃ m ∈ openers, m <+: t := by
  rw [opensInterpolation_iff]
  constructor
  · intro h
    obtain ⟨c, d, r, rfl, h⟩ := h
    refine ⟨[c, d], ?_, r, rfl⟩
    rcases h with ⟨rfl, rfl | rfl⟩ | ⟨rfl, rfl⟩ <;> simp [openers]
  · intro h
    obtain ⟨m, hm, r, rfl⟩ := h
    simp only [openers, List.mem_cons, List.not_mem_nil, or_false] at hm
    rcases hm with rfl | rfl | rfl
    · exact ⟨'#', '{', r, rfl, by simp⟩
    · exact ⟨'#', '[', r, rfl, by simp⟩
    · exact ⟨'!', '{', r, rfl, by simp⟩

theorem isGuarded_iff {t : Text} : IsGuarded t ↔
    ∀ u v, t = u ++ v → opensInterpolation v = true → u.getLast? = some '\\' := by
  constructor
  · intro h u v ht hv
    obtain ⟨m, hm, w, rfl⟩ := opensInterpolation_iff_opener.1 hv
    exact h m hm u w (by rw [ht, List.append_assoc])
  · intro h m hm u v ht
    have hopen : opensInterpolation (m ++ v) = true :=
      opensInterpolation_iff_opener.2 ⟨m, hm, List.prefix_append m v⟩
    exact h u (m ++ v) (by rw [ht, List.append_assoc]) hopen

/-! ## Taking the backslashes away -/

theorem unguarded_cons_of_opens {r : Text} (h : opensInterpolation r = true) :
    unguarded ('\\' :: r) = unguarded r := by
  rw [unguarded, if_pos ⟨rfl, opensInterpolation_iff_opener.1 h⟩]

theorem unguarded_cons_of_ne {c : Char} (h : c ≠ '\\') (r : Text) :
    unguarded (c :: r) = c :: unguarded r := by
  rw [unguarded, if_neg fun hc => h hc.1]

theorem unguarded_cons_of_not_opens {r : Text} (h : opensInterpolation r = false) (c : Char) :
    unguarded (c :: r) = c :: unguarded r := by
  refine if_neg fun hc => ?_
  rw [opensInterpolation_iff_opener.2 hc.2] at h
  cases h

theorem ne_backslash_of_opens {c : Char} {r : Text} (h : opensInterpolation (c :: r) = true) :
    c ≠ '\\' := by
  intro hc
  subst hc
  cases h

theorem inert_cons_of_opens {c : Char} {r : Text} (h : opensInterpolation (c :: r) = true) :
    inert (c :: r) = '\\' :: c :: inert r := by
  rw [inert, if_pos h]

theorem inert_cons_of_not_opens {c : Char} {r : Text} (h : opensInterpolation (c :: r) = false) :
    inert (c :: r) = c :: inert r := by
  simp [inert, h]

theorem unguarded_inert (t : Text) : unguarded (inert t) = t := by
  induction t with
  | nil => rfl
  | cons c r ih =>
    by_cases h : opensInterpolation (c :: r) = true
    · have hopen : opensInterpolation (c :: inert r) = true := by
        rw [opensInterpolation_cons_inert, h]
      rw [inert_cons_of_opens h, unguarded_cons_of_opens hopen,
        unguarded_cons_of_ne (ne_backslash_of_opens h), ih]
    · have hnone : opensInterpolation (c :: r) = false := by simpa using h
      rw [inert_cons_of_not_opens hnone,
        unguarded_cons_of_not_opens (opensInterpolation_inert r), ih]

/-! ## Guarded texts -/

theorem isGuarded_inert (t : Text) : IsGuarded (inert t) := by
  refine isGuarded_iff.2 fun u v ht hv => ?_
  obtain ⟨w, -, -, -, hu⟩ := guarded_inert t u v ht hv
  rw [hu, List.getLast?_concat]

theorem IsGuarded.not_opens {t : Text} (h : IsGuarded t) : opensInterpolation t = false := by
  by_contra hopen
  have hlast := isGuarded_iff.1 h [] t rfl (Bool.not_eq_false _ ▸ hopen)
  cases hlast

/-- What is in front of a text guards it at its beginning only. -/
theorem IsGuarded.of_append {p q : Text} (h : IsGuarded (p ++ q))
    (hq : opensInterpolation q = false) : IsGuarded q := by
  refine isGuarded_iff.2 fun u v hu hv => ?_
  have hne : u ≠ [] := by
    intro hnil
    rw [hu, hnil, List.nil_append, hv] at hq
    cases hq
  have hlast := isGuarded_iff.1 h (p ++ u) v (by rw [hu, List.append_assoc]) hv
  rwa [List.getLast?_append_of_ne_nil p hne] at hlast

theorem inert_unguarded : ∀ {s : Text}, IsGuarded s → inert (unguarded s) = s
  | [], _ => rfl
  | [c], _ => by
    have hone : opensInterpolation [c] = false := by
      rw [Bool.eq_false_iff]
      intro h
      obtain ⟨_, _, _, hc, -⟩ := opensInterpolation_iff.1 h
      cases hc
    rw [unguarded_cons_of_not_opens rfl, unguarded, inert_cons_of_not_opens hone]
    rfl
  | c :: d :: r, h => by
    have hc : opensInterpolation (c :: d :: r) = false := h.not_opens
    by_cases hopen : opensInterpolation (d :: r) = true
    · -- the opener is not guarded any more without its backslash, so the recursion goes on inside it
      have hback : c = '\\' := by
        simpa using isGuarded_iff.1 h [c] (d :: r) rfl hopen
      have hr : opensInterpolation r = false := by
        by_contra hr
        rw [opensInterpolation_of_opens (Bool.not_eq_false _ ▸ hr)] at hopen
        cases hopen
      have hrest : inert (unguarded r) = r := inert_unguarded (h.of_append (p := [c, d]) hr)
      have hagain : opensInterpolation (d :: unguarded r) = true := by
        rw [← opensInterpolation_cons_inert, hrest, hopen]
      rw [hback, unguarded_cons_of_opens hopen, unguarded_cons_of_ne (ne_backslash_of_opens hopen),
        inert_cons_of_opens hagain, hrest]
    · have hnone : opensInterpolation (d :: r) = false := by simpa using hopen
      have hrest : inert (unguarded (d :: r)) = d :: r :=
        inert_unguarded (h.of_append (p := [c]) hnone)
      have hagain : opensInterpolation (c :: unguarded (d :: r)) = false := by
        rw [← opensInterpolation_cons_inert, hrest, hc]
      rw [unguarded_cons_of_not_opens hnone, inert_cons_of_not_opens hagain, hrest]

theorem isGuarded_iff_inert {s : Text} : IsGuarded s ↔ inert (unguarded s) = s :=
  ⟨inert_unguarded, fun h => h ▸ isGuarded_inert _⟩

instance (s : Text) : Decidable (IsGuarded s) := decidable_of_iff _ isGuarded_iff_inert.symm

/-! ## Reading -/

theorem inert_of_plainReading? {s t : Text} (h : plainReading? s = some t) : inert t = s := by
  fun_induction plainReading? s generalizing t with
  | case1 =>
    cases h
    rfl
  | case2 c r hopen ih =>
    obtain ⟨u, hu, rfl⟩ := Option.map_eq_some_iff.1 h
    have hagain : opensInterpolation (c :: u) = true := by
      rw [← opensInterpolation_cons_inert, ih hu, hopen]
    rw [inert_cons_of_opens hagain, ih hu]
  | case3 c r hopen ih =>
    obtain ⟨u, hu, rfl⟩ := Option.map_eq_some_iff.1 h
    rw [inert_cons_of_not_opens rfl, ih hu]
  | case4 c r hne hopen => cases h
  | case5 c r hne hopen ih =>
    obtain ⟨u, hu, rfl⟩ := Option.map_eq_some_iff.1 h
    have hagain : opensInterpolation (c :: u) = false := by
      rw [← opensInterpolation_cons_inert, ih hu]
      simpa using hopen
    rw [inert_cons_of_not_opens hagain, ih hu]

/-- A lexer takes exactly the guarded texts as plain text. -/
theorem plainReading?_eq_some_iff {s t : Text} :
    plainReading? s = some t ↔ IsGuarded s ∧ unguarded s = t := by
  constructor
  · intro h
    rw [← inert_of_plainReading? h]
    exact ⟨isGuarded_inert t, unguarded_inert t⟩
  · intro h
    rw [← inert_unguarded h.1, h.2, plainReading?_inert]

end Text

/-- **Every text has one guarded form.** -/
theorem inert_invertible (t : Text) : IsGuarded (inert t) ∧ unguarded (inert t) = t ∧
    ∀ s, IsGuarded s → unguarded s = t → s = inert t := by
  refine ⟨isGuarded_inert t, unguarded_inert t, fun s hs ht => ?_⟩
  rw [← ht, inert_unguarded hs]

theorem inert_invertible_samples :
    let t : Text := "\\#\x7b#[\\\\!\x7b!#\x7b".toList
    let front : Text := "\\\\#\x7b\\".toList
    let back : Text := "\\\\\\!\x7b!\\#\x7b".toList
    let s : Text := front ++ ['#', '['] ++ back
    IsGuarded s ∧ front.getLast? = some '\\' ∧ s = inert t ∧ unguarded s = t := by
  intro t front back s
  obtain ⟨hguarded, hback, hunique⟩ := inert_invertible t
  have hs : s = inert t := hunique s (by decide) (by decide)
  rw [← hs] at hguarded hback
  exact ⟨hguarded, hguarded ['#', '['] (by decide) front back rfl, hs, hback⟩

end PugPretty
