import PugPretty.Proofs.WrapForecast

/-!
# The forecast of shorthand

Before a list is read it is asked which of its attributes will become shorthand, for the name of the
element and for the width of the list. `isShorthand_expectedRole_iff` says that the answer is right
for values without blanks around them. Of a value with blanks nothing is expected, though it becomes
shorthand like any other (`format_spacedClass`).
-/

namespace PugPretty

open Text

/-! ## Values without blanks -/

theorem not_isBlank_of_isQuote {c : Char} (h : isQuote c = true) : isBlank c = false := by
  simp only [isQuote, Bool.or_eq_true, beq_iff_eq] at h
  rcases h with rfl | rfl <;> decide

theorem trim_of_unquote? {t body : Text} (h : unquote? t = some body) : trim t = t := by
  cases t with
  | nil => cases h
  | cons q r =>
    simp only [unquote?, Option.ite_none_right_eq_some, Bool.and_eq_true, beq_iff_eq] at h
    obtain ⟨⟨hq, hlast⟩, -⟩ := h
    have hb := not_isBlank_of_isQuote hq
    have hstart : trimStart (q :: r) = q :: r := by simp [trimStart, hb]
    obtain ⟨ys, rfl⟩ := List.getLast?_eq_some_iff.1 hlast
    rw [trim, hstart]
    simp [trimEnd, dropEndWhile, hb]

theorem AttrValue.tightBody?_eq_some_iff {v : AttrValue} {body : Text} :
    v.tightBody? = some body ↔ v.isTight = true ∧ v.body? = some body := by
  cases v with
  | flag b => simp [tightBody?, body?]
  | source code =>
    simp only [tightBody?, body?, isTight, beq_iff_eq]
    constructor
    · intro h
      have ht := trim_of_unquote? h
      exact ⟨ht, ht.symm ▸ h⟩
    · rintro ⟨ht, h⟩
      exact ht ▸ h

theorem AttrValue.tightBody?_of_not_tight {v : AttrValue} (h : v.isTight ≠ true) :
    v.tightBody? = none :=
  Option.eq_none_iff_forall_ne_some.2 fun _ hb => h (tightBody?_eq_some_iff.1 hb).1

/-! ## What becomes shorthand -/

/-- A class that can be shorthand stands in the quotes, or an id that can be. -/
def Attribute.GivesShorthand (style : ClassStyle) (a : Attribute) : Prop :=
  ∃ body, a.value.body? = some body ∧
    (a.name = "class" ∧ style = .shorthand ∧ (∃ w ∈ words body, isSimpleName w = true) ∨
      a.name = "id" ∧ style ≠ .asIs ∧ isSimpleName (trim body) = true)

theorem words_of_blank {t : Text} (h : isBlankText t = true) : words t = [] := by
  unfold words
  induction t with
  | nil => rfl
  | cons c t ih =>
    obtain ⟨hc, ht⟩ := Bool.and_eq_true_iff.1 h
    rw [List.splitOnP_cons_eq_if_modifyHead, if_pos hc]
    simpa using ih ht

theorem Role.isShorthand_of_iff {style : ClassStyle} {name : String} {body : Text} :
    (Role.of style name body).isShorthand = true ↔
      name = "class" ∧ style = .shorthand ∧ (∃ w ∈ words body, isSimpleName w = true) ∨
        name = "id" ∧ style ≠ .asIs ∧ isSimpleName (trim body) = true := by
  unfold Role.of
  by_cases hn : name = "class"
  · subst hn
    cases style with
    | asIs => simp [isShorthand]
    | inList => simp [isShorthand]
    | shorthand =>
      by_cases hb : isBlankText body = true
      · simp [isShorthand, hb, words_of_blank hb]
      · simp [isShorthand, hb]
  · by_cases hi : name = "id" ∧ style ≠ .asIs ∧ isSimpleName (trim body) = true
    · simp [isShorthand, hi]
    · simp [isShorthand, hn, hi]

namespace Attribute

variable (style : Style) (a : Attribute)

theorem isShorthand_role_iff :
    (a.role style.classes).isShorthand = true ↔ a.GivesShorthand style.classes := by
  unfold role GivesShorthand
  cases a.value.body? with
  | none => simp [Role.isShorthand]
  | some body => simp [Role.isShorthand_of_iff]

theorem isShorthand_expected_iff :
    (a.expectedRole style.classes).isShorthand = true ↔
      a.value.isTight = true ∧ a.GivesShorthand style.classes := by
  rw [← isShorthand_role_iff]
  by_cases ht : a.value.isTight = true
  · rw [expectedRole_eq ht, and_iff_right ht]
  · simp [expectedRole, AttrValue.tightBody?_of_not_tight ht, Role.isShorthand, ht]

theorem ids_classNames_ne_nil_iff :
    (a.ids style ≠ [] ∨ a.classNames style ≠ []) ↔ (a.role style.classes).isShorthand = true := by
  unfold ids classNames
  cases a.role style.classes with
  | split simple others => simp [Role.isShorthand]
  | _ => simp [Role.isShorthand]

end Attribute

/-! ## What is inserted -/

/-- **The forecast of shorthand.** An attribute is expected to become shorthand exactly if it puts an
id or a class in front of its list and no blanks stand around its value. -/
theorem isShorthand_expectedRole_iff {ε : Type} (style : Style) (page : Page) (f : Formatter ε)
    (a : Attribute) (o : Outline) {s : Sheet ε} {x y z : Text} (h : s.draft.Parts x y z) :
    let after := (Sheet.applyAll page f (writeAttribute style a o).1 s).draft
    let inserts := a.ids style ≠ [] ∨ a.classNames style ≠ []
    (∃ item, after.Parts (x ++ idText (a.ids style)) (y ++ classText (a.classNames style))
        (z ++ item)) ∧
      (inserts ↔ a.GivesShorthand style.classes) ∧
      ((a.expectedRole style.classes).isShorthand = true ↔ a.value.isTight = true ∧ inserts) := by
  intro after inserts
  have hread : s.Reads x y z s.broken s.session := ⟨h, rfl, rfl⟩
  have hinserts : inserts ↔ a.GivesShorthand style.classes :=
    (a.ids_classNames_ne_nil_iff style).trans (a.isShorthand_role_iff style)
  refine ⟨⟨_, (reads_writeAttribute style page f hread o a).parts⟩, hinserts, ?_⟩
  rw [a.isShorthand_expected_iff style, hinserts]

theorem isShorthand_expectedRole_iff_twoClasses :
    let page : Page := ⟨' ', 2, 2, 80, -1, fun _ => false⟩
    let f : Formatter Empty := fun _ r => .ok r.code
    let a : Attribute := ⟨"class", .source "'a md:b'", true⟩
    let s : Sheet Empty := Sheet.applyAll page f [.say "p", .mark, .say "("] .blank
    a.GivesShorthand .shorthand ∧ (a.expectedRole .shorthand).isShorthand = true ∧
      (Sheet.applyAll page f (writeAttribute {} a {}).1 s).draft.text =
        "p.a(class=\"md:b\"".toList := by
  intro page f a s
  have hp : s.draft.Parts ['p'] [] ['('] := ⟨by decide, by decide, by decide⟩
  obtain ⟨-, hgives, hforecast⟩ := isShorthand_expectedRole_iff {} page f a {} hp
  have hinserts : a.ids {} ≠ [] ∨ a.classNames {} ≠ [] := by decide
  exact ⟨hgives.1 hinserts, hforecast.2 ⟨by decide, hinserts⟩, by decide⟩

def spacedClass : List Token :=
  [⟨.tag "div", {}⟩, ⟨.startAttributes, {}⟩, ⟨.attr ⟨"class", .source "\"foo\" ", true⟩, {}⟩,
    ⟨.endAttributes, {}⟩, ⟨.eos, {}⟩]

theorem format_spacedClass :
    let a : Attribute := ⟨"class", .source "\"foo\" ", true⟩
    WellFormed spacedClass ∧ (a.expectedRole .shorthand).isShorthand = false ∧
      a.classNames {} = ["foo".toList] ∧
      (format wordReader {} (fun _ r => .ok r.code : Formatter Empty) spacedClass).result = .ok "div.foo\n" :=
  ⟨by decide, by decide, by decide, rfl⟩

end PugPretty
