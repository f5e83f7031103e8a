import Mathlib.Data.List.Perm.Basic
import PugPretty.Options.Json

/-!
# Reading options that were written

Each key of an object stands for itself: what is read for it is the value that stands there, or the
default if there is none, and no other key has a say (`Options.ofJson?_eq_some_iff`). Options are
written with all their keys, so they are read again from what is written (`options_roundTrip`).
-/

namespace PugPretty

open Json

/-! ## Keys -/

namespace Options

def fields (o : Options) : Fields := o.layout.fields ++ o.style.fields

def keys : List String :=
  ["printWidth", "useTabs", "indentWidth", "lineBreak", "wrapAttributesThreshold",
    "wrapAttributesPattern", "quotes", "attributeSeparator", "classNotation",
    "commentPreserveSpaces", "explicitDiv", "semi", "sortAttributes", "sortAttributesBeginning",
    "sortAttributesEnd", "insertPragma"]

def choiceKeys : List String :=
  ["lineBreak", "quotes", "attributeSeparator", "classNotation", "commentPreserveSpaces",
    "sortAttributes"]

theorem map_fields (o : Options) : o.fields.map (·.1) = keys := rfl

theorem nodup_keys : keys.Nodup := by decide

end Options

/-- A choice is written by its name, and every other value as it stands. -/
def Spells (key : String) (j written : Json) : Prop :=
  if key ∈ Options.choiceKeys then ∃ s, j.choice? = some s ∧ written = str s else j = written

/-- What is written for the key is what stands in the object, once, or else the default. -/
def Given (fs : Fields) (key : String) (written : Json) : Prop :=
  (∃ j, fs.values key = [j] ∧ Spells key j written) ∨
    fs.values key = [] ∧ ({} : Options).fields.lookup key = some written

/-! ## Values -/

theorem nat?_eq_some_iff {n : Nat} (h : n < UInt64.size) {j : Json} :
    j.nat? = some n ↔ j = nat n := by
  refine ⟨fun hj => ?_, fun hj => hj ▸ nat?_nat h⟩
  unfold nat? at hj
  split at hj
  · next m =>
    split at hj
    · next hm =>
      have hmn : m = n := by
        have := Option.some.inj hj
        omega
      rw [hmn]
      rfl
    · cases hj
  · cases hj

def FitsInt (i : Int) : Prop := Int64.minValue.toInt ≤ i ∧ i ≤ Int64.maxValue.toInt

instance (i : Int) : Decidable (FitsInt i) := inferInstanceAs (Decidable (_ ∧ _))

theorem int?_eq_some_iff {i : Int} (h : FitsInt i) {j : Json} : j.int? = some i ↔ j = int i := by
  constructor
  · intro hj
    unfold int? at hj
    split at hj
    · split at hj
      · cases hj
        rfl
      · cases hj
    · cases hj
  · rintro rfl
    exact if_pos h

theorem fitsInt_of_int? {j : Json} {i : Int} (h : j.int? = some i) : FitsInt i := by
  unfold int? at h
  split at h
  · split at h
    · next hm =>
      cases h
      exact hm
    · cases h
  · cases h

theorem mapM_str?_eq_some_iff {js : List Json} {ss : List String} :
    js.mapM str? = some ss ↔ js = ss.map str := by
  induction js generalizing ss with
  | nil => cases ss <;> simp
  | cons j js ih =>
    simp only [List.mapM_cons, Option.bind_eq_bind, Option.bind_eq_some_iff, str?_eq_some_iff, ih,
      Option.pure_def, Option.some.injEq]
    constructor
    · rintro ⟨s, rfl, ss, rfl, rfl⟩
      rfl
    · intro h
      cases ss with
      | nil => cases h
      | cons s ss =>
        cases h
        exact ⟨s, rfl, ss, rfl, rfl⟩

theorem strs?_eq_some_iff {j : Json} {ss : List String} : j.strs? = some ss ↔ j = strs ss := by
  cases j <;> simp [strs?, arr?, strs, mapM_str?_eq_some_iff]

/-! ## Fields -/

/-- The reader takes what spells the value, and nothing else. -/
structure Takes {α : Type} (key : String) (read : Json → Option α) (write : α → Json) (a : α) :
    Prop where
  spelled : ∀ j, read j = some a ↔ Spells key j (write a)
  back : read (write a) = some a

section
variable {α : Type} {key : String} {read : Json → Option α} {write : α → Json} {a d : α}

theorem takes_exact (hk : key ∉ Options.choiceKeys) (h : ∀ j, read j = some a ↔ j = write a) :
    Takes key read write a :=
  ⟨fun j => by rw [h, Spells, if_neg hk], (h _).2 rfl⟩

theorem takes_choice (c : Choice α) (hk : key ∈ Options.choiceKeys) (a : α) :
    Takes key c.ofJson? c.toJson a :=
  ⟨fun j => by rw [c.ofJson?_eq_some_iff, Spells, if_pos hk], c.ofJson?_toJson a⟩

theorem spells_self {j : Json} (hk : key ∉ Options.choiceKeys) : Spells key j j := by
  rw [Spells, if_neg hk]

theorem Takes.spells (h : Takes key read write a) : Spells key (write a) (write a) :=
  (h.spelled _).1 h.back

theorem getD_eq_some_iff_given {fs : Fields}
    (hd : ({} : Options).fields.lookup key = some (write d)) (htd : Takes key read write d)
    (hta : Takes key read write a) : fs.getD key read d = some a ↔ Given fs key (write a) := by
  rw [Fields.getD_eq_some_iff, Given, hd, Option.some.injEq]
  refine or_congr (exists_congr fun j => and_congr_right fun _ => hta.spelled j)
    (and_congr_right fun _ => ⟨fun h => h ▸ rfl, fun h => ?_⟩)
  have hread := hta.back
  rw [← h, htd.back] at hread
  exact (Option.some.inj hread).symm

theorem getD_iff_given {fs : Fields} (hd : ({} : Options).fields.lookup key = some (write d))
    (h : ∀ a, Takes key read write a) :
    fs.getD key read d = some a ↔ Given fs key (write a) :=
  getD_eq_some_iff_given hd (h d) (h a)

theorem takes_nat {n : Nat} (hk : key ∉ Options.choiceKeys) (h : n < UInt64.size) :
    Takes key nat? nat n :=
  takes_exact hk fun _ => nat?_eq_some_iff h

theorem takes_int {i : Int} (hk : key ∉ Options.choiceKeys) (h : FitsInt i) :
    Takes key int? int i :=
  takes_exact hk fun _ => int?_eq_some_iff h

theorem takes_bool (hk : key ∉ Options.choiceKeys) (b : Bool) : Takes key bool? bool b :=
  takes_exact hk fun _ => bool?_eq_some_iff

theorem takes_optStr (hk : key ∉ Options.choiceKeys) (s : Option String) :
    Takes key (nullable? str?) (opt str) s :=
  takes_exact hk fun _ => nullable?_str_eq_some_iff

theorem takes_strs (hk : key ∉ Options.choiceKeys) (ss : List String) : Takes key strs? strs ss :=
  takes_exact hk fun _ => strs?_eq_some_iff

end

/-! ## The two groups -/

structure Layout.InRange (l : Layout) : Prop where
  width : l.width < UInt64.size
  indentWidth : l.indentWidth < UInt64.size
  threshold : FitsInt l.wrapThreshold

theorem lt_of_getD_nat? {fs : Fields} {key : String} {n d : Nat} (hd : d < UInt64.size)
    (h : fs.getD key nat? d = some n) : n < UInt64.size := by
  rcases Fields.getD_eq_some_iff.1 h with ⟨j, -, hj⟩ | ⟨-, rfl⟩
  · exact lt_of_nat? hj
  · exact hd

theorem fitsInt_of_getD_int? {fs : Fields} {key : String} {i d : Int} (hd : FitsInt d)
    (h : fs.getD key int? d = some i) : FitsInt i := by
  rcases Fields.getD_eq_some_iff.1 h with ⟨j, -, hj⟩ | ⟨-, rfl⟩
  · exact fitsInt_of_int? hj
  · exact hd

theorem Layout.inRange_of_ofFields? {fs : Fields} {l : Layout} (h : ofFields? fs = some l) :
    l.InRange := by
  simp only [ofFields?, Option.bind_eq_bind, Option.bind_eq_some_iff, Option.pure_def,
    Option.some.injEq] at h
  obtain ⟨_, hw, _, -, _, hi, _, -, _, ht, _, -, rfl⟩ := h
  exact ⟨lt_of_getD_nat? (by decide) hw, lt_of_getD_nat? (by decide) hi,
    fitsInt_of_getD_int? (by decide) ht⟩

theorem Layout.ofFields?_eq_some_iff {fs : Fields} {l : Layout} (h : l.InRange) :
    ofFields? fs = some l ↔ ∀ p ∈ l.fields, Given fs p.1 p.2 := by
  have hwidth : fs.getD "printWidth" nat? ({} : Layout).width = some l.width ↔
      Given fs "printWidth" (nat l.width) :=
    getD_eq_some_iff_given rfl (takes_nat (by decide) (by decide)) (takes_nat (by decide) h.width)
  have htabs : fs.getD "useTabs" bool? ({} : Layout).useTabs = some l.useTabs ↔
      Given fs "useTabs" (bool l.useTabs) :=
    getD_iff_given rfl (takes_bool (by decide))
  have hindent : fs.getD "indentWidth" nat? ({} : Layout).indentWidth = some l.indentWidth ↔
      Given fs "indentWidth" (nat l.indentWidth) :=
    getD_eq_some_iff_given rfl (takes_nat (by decide) (by decide))
      (takes_nat (by decide) h.indentWidth)
  have hbreak : fs.getD "lineBreak" LineBreak.ofJson? ({} : Layout).lineBreak = some l.lineBreak ↔
      Given fs "lineBreak" l.lineBreak.toJson :=
    getD_iff_given rfl (takes_choice LineBreak.choice (by decide))
  have hthreshold : fs.getD "wrapAttributesThreshold" int? ({} : Layout).wrapThreshold =
      some l.wrapThreshold ↔ Given fs "wrapAttributesThreshold" (int l.wrapThreshold) :=
    getD_eq_some_iff_given rfl (takes_int (by decide) (by decide))
      (takes_int (by decide) h.threshold)
  have hpattern : fs.getD "wrapAttributesPattern" (nullable? str?) ({} : Layout).wrapPattern =
      some l.wrapPattern ↔ Given fs "wrapAttributesPattern" (opt str l.wrapPattern) :=
    getD_iff_given rfl (takes_optStr (by decide))
  simp only [fields, List.forall_mem_cons, ← hwidth, ← htabs, ← hindent, ← hbreak, ← hthreshold,
    ← hpattern]
  constructor
  · intro hread
    simp only [ofFields?, Option.bind_eq_bind, Option.bind_eq_some_iff, Option.pure_def,
      Option.some.injEq] at hread
    obtain ⟨_, hw, _, ht, _, hi, _, hb, _, hn, _, hp, rfl⟩ := hread
    exact ⟨hw, ht, hi, hb, hn, hp, List.forall_mem_nil _⟩
  · rintro ⟨hw, ht, hi, hb, hn, hp, -⟩
    simp only [ofFields?, hw, ht, hi, hb, hn, hp]
    rfl

theorem Style.ofFields?_eq_some_iff {fs : Fields} {s : Style} :
    ofFields? fs = some s ↔ ∀ p ∈ s.fields, Given fs p.1 p.2 := by
  have hquotes : fs.getD "quotes" Quotes.ofJson? ({} : Style).quotes = some s.quotes ↔
      Given fs "quotes" s.quotes.toJson :=
    getD_iff_given rfl (takes_choice Quotes.choice (by decide))
  have hseparator : fs.getD "attributeSeparator" Separator.ofJson? ({} : Style).separator =
      some s.separator ↔ Given fs "attributeSeparator" s.separator.toJson :=
    getD_iff_given rfl (takes_choice Separator.choice (by decide))
  have hclasses : fs.getD "classNotation" ClassStyle.ofJson? ({} : Style).classes = some s.classes ↔
      Given fs "classNotation" s.classes.toJson :=
    getD_iff_given rfl (takes_choice ClassStyle.choice (by decide))
  have hcomments : fs.getD "commentPreserveSpaces" CommentBlanks.ofJson? ({} : Style).comments =
      some s.comments ↔ Given fs "commentPreserveSpaces" s.comments.toJson :=
    getD_iff_given rfl (takes_choice CommentBlanks.choice (by decide))
  have hdiv : fs.getD "explicitDiv" bool? ({} : Style).explicitDiv = some s.explicitDiv ↔
      Given fs "explicitDiv" (bool s.explicitDiv) :=
    getD_iff_given rfl (takes_bool (by decide))
  have hsemi : fs.getD "semi" bool? ({} : Style).semicolons = some s.semicolons ↔
      Given fs "semi" (bool s.semicolons) :=
    getD_iff_given rfl (takes_bool (by decide))
  have horder : fs.getD "sortAttributes" NameOrder.ofJson? ({} : Style).order = some s.order ↔
      Given fs "sortAttributes" s.order.toJson :=
    getD_iff_given rfl (takes_choice NameOrder.choice (by decide))
  have hleading : fs.getD "sortAttributesBeginning" strs? ({} : Style).leading = some s.leading ↔
      Given fs "sortAttributesBeginning" (strs s.leading) :=
    getD_iff_given rfl (takes_strs (by decide))
  have htrailing : fs.getD "sortAttributesEnd" strs? ({} : Style).trailing = some s.trailing ↔
      Given fs "sortAttributesEnd" (strs s.trailing) :=
    getD_iff_given rfl (takes_strs (by decide))
  have hpragma : fs.getD "insertPragma" bool? ({} : Style).pragma = some s.pragma ↔
      Given fs "insertPragma" (bool s.pragma) :=
    getD_iff_given rfl (takes_bool (by decide))
  simp only [fields, List.forall_mem_cons, ← hquotes, ← hseparator, ← hclasses, ← hcomments, ← hdiv,
    ← hsemi, ← horder, ← hleading, ← htrailing, ← hpragma]
  constructor
  · intro hread
    simp only [ofFields?, Option.bind_eq_bind, Option.bind_eq_some_iff, Option.pure_def,
      Option.some.injEq] at hread
    obtain ⟨_, hq, _, hsep, _, hc, _, hcom, _, hd, _, hsem, _, ho, _, hl, _, ht, _, hp, rfl⟩ :=
      hread
    exact ⟨hq, hsep, hc, hcom, hd, hsem, ho, hl, ht, hp, List.forall_mem_nil _⟩
  · rintro ⟨hq, hsep, hc, hcom, hd, hsem, ho, hl, ht, hp, -⟩
    simp only [ofFields?, hq, hsep, hc, hcom, hd, hsem, ho, hl, ht, hp]
    rfl

namespace Options

theorem ofJson?_eq_some_iff {fs : Fields} {o : Options} :
    ofJson? (obj fs) = some o ↔ o.layout.InRange ∧ ∀ p ∈ o.fields, Given fs p.1 p.2 := by
  have hparts : ofJson? (obj fs) = some o ↔
      Layout.ofFields? fs = some o.layout ∧ Style.ofFields? fs = some o.style := by
    simp only [ofJson?, obj?, Option.bind_eq_bind, Option.bind_eq_some_iff, Option.pure_def,
      Option.some.injEq]
    constructor
    · rintro ⟨_, rfl, l, hl, s, hs, rfl⟩
      exact ⟨hl, hs⟩
    · rintro ⟨hl, hs⟩
      exact ⟨_, rfl, _, hl, _, hs, rfl⟩
  rw [hparts, Style.ofFields?_eq_some_iff, fields, List.forall_mem_append, ← and_assoc]
  refine and_congr_left fun _ => ?_
  constructor
  · intro hl
    have hr := Layout.inRange_of_ofFields? hl
    exact ⟨hr, (Layout.ofFields?_eq_some_iff hr).1 hl⟩
  · rintro ⟨hr, hl⟩
    exact (Layout.ofFields?_eq_some_iff hr).2 hl

theorem spells_fields (o : Options) : ∀ p ∈ o.fields, Spells p.1 p.2 p.2 := by
  have hchoice {α : Type} (c : Choice α) (a : α) {key : String} (hk : key ∈ choiceKeys) :
      Spells key (c.toJson a) (c.toJson a) := (takes_choice c hk a).spells
  simp only [fields, Layout.fields, Style.fields, List.cons_append, List.nil_append,
    List.forall_mem_cons]
  exact ⟨spells_self (by decide), spells_self (by decide), spells_self (by decide),
    hchoice LineBreak.choice _ (by decide), spells_self (by decide), spells_self (by decide),
    hchoice Quotes.choice _ (by decide), hchoice Separator.choice _ (by decide),
    hchoice ClassStyle.choice _ (by decide), hchoice CommentBlanks.choice _ (by decide),
    spells_self (by decide), spells_self (by decide), hchoice NameOrder.choice _ (by decide),
    spells_self (by decide), spells_self (by decide), spells_self (by decide),
    List.forall_mem_nil _⟩

theorem given_fields (o : Options) : ∀ p ∈ o.fields, Given o.fields p.1 p.2 := by
  intro p hp
  have hn : (o.fields.map (·.1)).Nodup := nodup_keys
  exact .inl ⟨p.2, Fields.values_of_mem hn hp, o.spells_fields p hp⟩

theorem ofJson?_toJson {o : Options} (h : o.layout.InRange) : ofJson? o.toJson = some o :=
  ofJson?_eq_some_iff.2 ⟨h, o.given_fields⟩

end Options

/-! ## Other keys, and another order -/

def knownFields (fs : Fields) : Fields := fs.filter fun p => p.1 ∈ Options.keys

theorem values_knownFields {fs : Fields} {key : String} (hk : key ∈ Options.keys) :
    (knownFields fs).values key = fs.values key := by
  unfold knownFields Fields.values
  rw [List.filter_filter]
  refine congrArg _ (List.filter_congr fun p _ => ?_)
  by_cases hp : p.1 = key
  · simp [hp, hk]
  · simp [hp]

theorem Given.perm {fs fs' : Fields} {key : String} {written : Json}
    (h : (fs.values key).Perm (fs'.values key)) (hg : Given fs key written) :
    Given fs' key written := by
  rcases hg with ⟨j, hj, hs⟩ | ⟨hn, hd⟩
  · exact .inl ⟨j, List.singleton_perm.1 (hj ▸ h) |>.symm, hs⟩
  · exact .inr ⟨List.nil_perm.1 (hn ▸ h), hd⟩

theorem Options.ofJson?_perm {fs fs' : Fields} (h : (knownFields fs).Perm (knownFields fs')) :
    ofJson? (obj fs') = ofJson? (obj fs) := by
  refine Option.ext fun o => ?_
  rw [ofJson?_eq_some_iff, ofJson?_eq_some_iff]
  have hv : ∀ p ∈ o.fields, (fs.values p.1).Perm (fs'.values p.1) := by
    intro p hp
    have hk : p.1 ∈ keys := o.map_fields ▸ List.mem_map_of_mem hp
    have hperm := Fields.values_perm h p.1
    rwa [values_knownFields hk, values_knownFields hk] at hperm
  exact and_congr_right fun _ => forall₂_congr fun p hp =>
    ⟨Given.perm (hv p hp).symm, Given.perm (hv p hp)⟩

/-- **Options are read back from what is written, and so are options that were read.** Each key of
the object that was read stands for itself; the other keys and the order do not count. -/
theorem options_roundTrip :
    (∀ o : Options, o.layout.InRange → Options.ofJson? o.toJson = some o) ∧
    (∀ (j : Json) (o : Options), Options.ofJson? j = some o →
      Options.ofJson? o.toJson = some o ∧ ∃ fs, j = obj fs) ∧
    (∀ (fs : Fields) (o : Options), Options.ofJson? (obj fs) = some o ↔
      o.layout.InRange ∧ ∀ p ∈ o.fields, Given fs p.1 p.2) ∧
    (∀ fs fs' : Fields, (knownFields fs).Perm (knownFields fs') →
      Options.ofJson? (obj fs') = Options.ofJson? (obj fs)) ∧
    ∀ o : Options, o.toJson = obj o.fields ∧ o.fields.map (·.1) = Options.keys := by
  refine ⟨fun o => Options.ofJson?_toJson, fun j o h => ?_, fun fs o => Options.ofJson?_eq_some_iff,
    fun fs fs' => Options.ofJson?_perm, fun o => ⟨rfl, o.map_fields⟩⟩
  cases j with
  | obj fs => exact ⟨Options.ofJson?_toJson (Options.ofJson?_eq_some_iff.1 h).1, fs, rfl⟩
  | _ => cases h

def sparseFields : Fields :=
  [("quotes", obj [("single", .null)]), ("tabWidth", nat 4), ("wrapAttributesThreshold", int 0)]

def sparseOptions : Options := { layout := { wrapThreshold := 0 }, style := { quotes := .single } }

theorem options_roundTrip_sparse :
    Options.ofJson? (obj sparseFields) = some sparseOptions ∧
    Options.ofJson? (obj sparseFields.reverse) = some sparseOptions ∧
    Options.ofJson? sparseOptions.toJson = some sparseOptions ∧
    Options.ofJson? (Options.toJson { layout := { wrapPattern := some "(" } }) =
      some { layout := { wrapPattern := some "(" } } := by
  obtain ⟨hback, hread, -, hperm, -⟩ := options_roundTrip
  have h : Options.ofJson? (obj sparseFields) = some sparseOptions := by decide +kernel
  have hreverse : (knownFields sparseFields).Perm (knownFields sparseFields.reverse) := by
    rw [knownFields, knownFields, List.filter_reverse]
    exact (List.reverse_perm _).symm
  refine ⟨h, ?_, (hread _ _ h).1, hback _ ⟨by decide, by decide, by decide⟩⟩
  rw [hperm sparseFields sparseFields.reverse hreverse, h]

end PugPretty
