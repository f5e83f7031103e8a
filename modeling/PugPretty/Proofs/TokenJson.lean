import PugPretty.Token.Json

/-!
# Reading tokens that were written

An object is read as a token exactly if the fields of the token stand in it (`Token.StandsIn`), where
a field may be missing that would be `null` or all zeros, and all other fields do not count. A token
is written with all its fields and no other. So it is read again from what is written, whatever it
was read from (`token_roundTrip`).
-/

namespace PugPretty

open Json

/-! ## Locations -/

structure Position.Fits (p : Position) : Prop where
  line : p.line < UInt64.size
  column : p.column < UInt64.size

structure Span.Fits (s : Span) : Prop where
  start : s.start.Fits
  stop : s.stop.Fits

theorem Position.ofJson?_toJson {p : Position} (h : p.Fits) : ofJson? p.toJson = some p := by
  have hl : Fields.need [("line", nat p.line), ("column", nat p.column)] "line" nat? = some p.line :=
    Fields.need_eq_some_iff.2 ⟨_, rfl, nat?_nat h.line⟩
  have hc : Fields.need [("line", nat p.line), ("column", nat p.column)] "column" nat? =
      some p.column := Fields.need_eq_some_iff.2 ⟨_, rfl, nat?_nat h.column⟩
  simp only [toJson, ofJson?]
  rw [hl, hc]
  rfl

theorem Position.fits_of_ofJson? {j : Json} {p : Position} (h : ofJson? j = some p) : p.Fits := by
  unfold ofJson? at h
  split at h
  · simp only [Option.bind_eq_bind, Option.bind_eq_some_iff, Option.pure_def, Option.some.injEq,
      Fields.need_eq_some_iff] at h
    obtain ⟨line, ⟨_, -, hl⟩, column, ⟨_, -, hc⟩, rfl⟩ := h
    exact ⟨lt_of_nat? hl, lt_of_nat? hc⟩
  · simp only [Option.bind_eq_bind, Option.bind_eq_some_iff, Option.pure_def,
      Option.some.injEq] at h
    obtain ⟨line, hl, column, hc, rfl⟩ := h
    exact ⟨lt_of_nat? hl, lt_of_nat? hc⟩
  · cases h

theorem Span.ofJson?_toJson {s : Span} (h : s.Fits) : ofJson? s.toJson = some s := by
  have hs : Fields.need [("start", s.start.toJson), ("end", s.stop.toJson)] "start"
      Position.ofJson? = some s.start :=
    Fields.need_eq_some_iff.2 ⟨_, rfl, Position.ofJson?_toJson h.start⟩
  have he : Fields.need [("start", s.start.toJson), ("end", s.stop.toJson)] "end"
      Position.ofJson? = some s.stop :=
    Fields.need_eq_some_iff.2 ⟨_, rfl, Position.ofJson?_toJson h.stop⟩
  simp only [toJson, ofJson?]
  rw [hs, he]
  rfl

theorem Span.fits_of_ofJson? {j : Json} {s : Span} (h : ofJson? j = some s) : s.Fits := by
  unfold ofJson? at h
  split at h
  · simp only [Option.bind_eq_bind, Option.bind_eq_some_iff, Option.pure_def, Option.some.injEq,
      Fields.need_eq_some_iff] at h
    obtain ⟨start, ⟨_, -, hs⟩, stop, ⟨_, -, he⟩, rfl⟩ := h
    exact ⟨Position.fits_of_ofJson? hs, Position.fits_of_ofJson? he⟩
  · simp only [Option.bind_eq_bind, Option.bind_eq_some_iff, Option.pure_def,
      Option.some.injEq] at h
    obtain ⟨start, hs, stop, he, rfl⟩ := h
    exact ⟨Position.fits_of_ofJson? hs, Position.fits_of_ofJson? he⟩
  · cases h

/-! ## Values -/

theorem AttrValue.ofJson?_eq_some_iff {j : Json} {v : AttrValue} :
    ofJson? j = some v ↔ j = v.toJson := by
  cases j <;> cases v <;> simp [ofJson?, toJson]

theorem BlockMode.ofJson?_eq_some_iff {j : Json} {m : BlockMode} :
    ofJson? j = some m ↔ ∃ s, j.choice? = some s ∧ m.toJson = str s :=
  choice.ofJson?_eq_some_iff

/-! ## Kinds -/

namespace Kind

def keys (k : Kind) : List String := k.fields.map (·.1)

def optional : Kind → List String
  | doctype _ => ["val"]
  | call .. | mixin .. => ["args"]
  | each .. => ["key"]
  | _ => []

/-- The field of the kind that is written with this value stands in the object. -/
inductive FieldIn (k : Kind) (fs : Fields) (key : String) (j : Json) : Prop
  | written : fs.values key = [j] → FieldIn k fs key j
  | missing : fs.values key = [] → key ∈ k.optional → j = .null → FieldIn k fs key j
  | choice {j' : Json} {s : String} : key = "mode" → fs.values key = [j'] → j'.choice? = some s →
      j = str s → FieldIn k fs key j

def FieldsIn (k : Kind) (fs : Fields) : Prop := ∀ p ∈ k.fields, k.FieldIn fs p.1 p.2

theorem FieldsIn.congr {k : Kind} {fs fs' : Fields} (h : k.FieldsIn fs)
    (hfs : ∀ key ∈ k.keys, fs'.values key = fs.values key) : k.FieldsIn fs' := by
  intro p hp
  have hl := hfs p.1 (List.mem_map_of_mem hp)
  rcases h p hp with hj | ⟨hj, ho, hn⟩ | ⟨hkey, hj, hs, hm⟩
  · exact .written (hl.trans hj)
  · exact .missing (hl.trans hj) ho hn
  · exact .choice hkey (hl.trans hj) hs hm

theorem fieldIn_opt {k : Kind} {fs : Fields} {key : String} {s : Option String}
    (ho : key ∈ k.optional)
    (h : fs.values key = [opt str s] ∨ fs.values key = [] ∧ s = none) :
    k.FieldIn fs key (opt str s) := by
  rcases h with h | ⟨h, rfl⟩
  · exact .written h
  · exact .missing h ho rfl

theorem fieldsIn_of_ofFields? {type : String} {fs : Fields} {k : Kind}
    (h : ofFields? type fs = some k) : k.type = type ∧ k.FieldsIn fs := by
  unfold ofFields? at h
  unfold FieldsIn
  dsimp only at h
  -- every field that has been read is known to be there, and the kind is made of these fields
  split at h <;>
    simp only [Option.bind_eq_bind, Option.bind_eq_some_iff, Option.pure_def, Option.some.injEq,
      Option.map_eq_some_iff, Fields.need_eq_some_iff, Fields.getD_eq_some_iff, str?_eq_some_iff,
      bool?_eq_some_iff, nullable?_str_eq_some_iff, AttrValue.ofJson?_eq_some_iff,
      BlockMode.ofJson?_eq_some_iff, exists_eq_right, reduceCtorEq] at h
  all_goals grind [type, Keyword.type, Clause.type, fields, FieldIn, optional, fieldIn_opt]

section
variable {k : Kind} {fs : Fields} (h : k.FieldsIn fs) {key : String}
include h

theorem FieldsIn.need {α : Type} {read : Json → Option α} {j : Json} {a : α}
    (hk : (key, j) ∈ k.fields) (ho : key ∉ k.optional) (hm : key ≠ "mode") (ha : read j = some a) :
    fs.need key read = some a := by
  rcases h _ hk with hj | ⟨-, hmem, -⟩ | ⟨hkey, -⟩
  · exact Fields.need_eq_some_iff.2 ⟨j, hj, ha⟩
  · exact absurd hmem ho
  · exact absurd hkey hm

theorem FieldsIn.needStr (s : String) (hk : (key, str s) ∈ k.fields) (ho : key ∉ k.optional)
    (hm : key ≠ "mode") : fs.need key str? = some s :=
  h.need hk ho hm (str?_eq_some_iff.2 rfl)

theorem FieldsIn.needBool (b : Bool) (hk : (key, bool b) ∈ k.fields) (ho : key ∉ k.optional)
    (hm : key ≠ "mode") : fs.need key bool? = some b :=
  h.need hk ho hm (bool?_eq_some_iff.2 rfl)

theorem FieldsIn.getOpt (s : Option String) (hk : (key, opt str s) ∈ k.fields) (hm : key ≠ "mode") :
    fs.getD key (nullable? str?) none = some s := by
  rw [Fields.getD_eq_some_iff]
  rcases h _ hk with hj | ⟨hj, -, hs⟩ | ⟨hkey, -⟩
  · exact .inl ⟨_, hj, nullable?_str_eq_some_iff.2 rfl⟩
  · cases s with
    | none => exact .inr ⟨hj, rfl⟩
    | some s => cases hs
  · exact absurd hkey hm

theorem FieldsIn.needMode (m : BlockMode) (hk : ("mode", m.toJson) ∈ k.fields)
    (ho : "mode" ∉ k.optional) : fs.need "mode" BlockMode.ofJson? = some m := by
  rw [Fields.need_eq_some_iff]
  rcases h _ hk with hj | ⟨-, hmem, -⟩ | ⟨-, hj, hs, hm⟩
  · exact ⟨_, hj, BlockMode.choice.ofJson?_toJson m⟩
  · exact absurd hmem ho
  · exact ⟨_, hj, BlockMode.ofJson?_eq_some_iff.2 ⟨_, hs, hm⟩⟩

theorem ofFields?_of_fieldsIn : ofFields? k.type fs = some k := by
  cases k with
  | tag s | className s | idName s | text s | path s | filter s | interpolation s | condition s
  | andAttributes s | html s =>
    have hv := h.needStr s (.head _) nofun (by decide)
    exact congrArg (Option.map _) hv
  | clause w s =>
    have hv := h.needStr s (.head _) nofun (by decide)
    cases w <;> exact congrArg (Option.map _) hv
  | attr a =>
    have hn := h.needStr a.name (.head _) nofun (by decide)
    have hv := h.need (.tail _ (.head _)) nofun (by decide) (AttrValue.ofJson?_eq_some_iff.2 rfl)
    have he := h.needBool a.mustEscape (.tail _ (.tail _ (.head _))) nofun (by decide)
    exact Option.bind_eq_some_iff.2 ⟨_, hn, Option.bind_eq_some_iff.2 ⟨_, hv,
      Option.bind_eq_some_iff.2 ⟨_, he, rfl⟩⟩⟩
  | interpolatedCode s mustEscape buffer | code s mustEscape buffer =>
    have hv := h.needStr s (.head _) nofun (by decide)
    have he := h.needBool mustEscape (.tail _ (.head _)) nofun (by decide)
    have hb := h.needBool buffer (.tail _ (.tail _ (.head _))) nofun (by decide)
    exact Option.bind_eq_some_iff.2 ⟨_, hv, Option.bind_eq_some_iff.2 ⟨_, he,
      Option.bind_eq_some_iff.2 ⟨_, hb, rfl⟩⟩⟩
  | comment s buffer =>
    have hv := h.needStr s (.head _) nofun (by decide)
    have hb := h.needBool buffer (.tail _ (.head _)) nofun (by decide)
    exact Option.bind_eq_some_iff.2 ⟨_, hv, Option.bind_eq_some_iff.2 ⟨_, hb, rfl⟩⟩
  | doctype s =>
    have hv := h.getOpt s (.head _) (by decide)
    exact Option.bind_eq_some_iff.2 ⟨_, hv, rfl⟩
  | block s mode =>
    have hv := h.needStr s (.head _) nofun (by decide)
    have hm := h.needMode mode (.tail _ (.head _)) nofun
    exact Option.bind_eq_some_iff.2 ⟨_, hv, Option.bind_eq_some_iff.2 ⟨_, hm, rfl⟩⟩
  | call s args | mixin s args =>
    have hv := h.needStr s (.head _) (by simp [optional]) (by decide)
    have ha := h.getOpt args (.tail _ (.head _)) (by decide)
    exact Option.bind_eq_some_iff.2 ⟨_, hv, Option.bind_eq_some_iff.2 ⟨_, ha, rfl⟩⟩
  | each s key code =>
    have hv := h.needStr s (.head _) (by simp [optional]) (by decide)
    have hk := h.getOpt key (.tail _ (.head _)) (by decide)
    have hc := h.needStr code (.tail _ (.tail _ (.head _))) (by simp [optional]) (by decide)
    exact Option.bind_eq_some_iff.2 ⟨_, hv, Option.bind_eq_some_iff.2 ⟨_, hk,
      Option.bind_eq_some_iff.2 ⟨_, hc, rfl⟩⟩⟩
  | eachOf s code =>
    have hv := h.needStr s (.head _) nofun (by decide)
    have hc := h.needStr code (.tail _ (.head _)) nofun (by decide)
    exact Option.bind_eq_some_iff.2 ⟨_, hv, Option.bind_eq_some_iff.2 ⟨_, hc, rfl⟩⟩
  | keyword w => cases w <;> rfl
  | _ => rfl

end

theorem ofFields?_eq_some_iff {type : String} {fs : Fields} {k : Kind} :
    ofFields? type fs = some k ↔ k.type = type ∧ k.FieldsIn fs :=
  ⟨fieldsIn_of_ofFields?, fun ⟨ht, h⟩ => ht ▸ ofFields?_of_fieldsIn h⟩

/-- The kind without what it carries. -/
def bare : Kind → Kind
  | tag _ => tag ""
  | attr _ => attr ⟨"", .source "", false⟩
  | className _ => className ""
  | idName _ => idName ""
  | text _ => text ""
  | interpolatedCode .. => interpolatedCode "" false false
  | code .. => code "" false false
  | comment .. => comment "" false
  | doctype _ => doctype (some "")
  | block .. => block "" .replace
  | path _ => path ""
  | filter _ => filter ""
  | interpolation _ => interpolation ""
  | call .. => call "" none
  | mixin .. => mixin "" none
  | condition _ => condition ""
  | each .. => each "" none ""
  | eachOf .. => eachOf "" ""
  | clause w _ => clause w ""
  | andAttributes _ => andAttributes ""
  | html _ => html ""
  | k => k

def bareFields : Fields :=
  [("name", str ""), ("val", str ""), ("mustEscape", bool false), ("buffer", bool false),
    ("mode", str "replace"), ("code", str "")]

theorem type_bare (k : Kind) : k.bare.type = k.type := by
  cases k <;> rfl

theorem ofFields?_bareFields (k : Kind) : ofFields? k.type bareFields = some k.bare := by
  cases k with
  | keyword w => cases w <;> rfl
  | clause w _ => cases w <;> rfl
  | _ => rfl

/-- Kinds share a type only if they differ in nothing but what they carry. -/
theorem type_eq_iff {k k' : Kind} : k.type = k'.type ↔ k.bare = k'.bare := by
  constructor
  · intro h
    have hb := ofFields?_bareFields k
    rw [h, ofFields?_bareFields] at hb
    exact (Option.some.inj hb).symm
  · intro h
    rw [← type_bare, h, type_bare]

end Kind

/-! ## Tokens -/

namespace Token

def keys (t : Token) : List String := "type" :: t.kind.keys ++ ["loc"]

def fields (t : Token) : Fields :=
  ("type", str t.kind.type) :: t.kind.fields ++ [("loc", t.span.toJson)]

structure StandsIn (t : Token) (fs : Fields) : Prop where
  type : ∃ j, fs.values "type" = [j] ∧ Kind.typeOfJson? j = some t.kind.type
  kind : t.kind.FieldsIn fs
  loc : (∃ j, fs.values "loc" = [j] ∧ Span.ofJson? j = some t.span) ∨
    fs.values "loc" = [] ∧ t.span = {}

theorem ofJson?_eq_some_iff {j : Json} {t : Token} :
    ofJson? j = some t ↔ ∃ fs, j = obj fs ∧ t.StandsIn fs := by
  have hobj : ∀ {fs}, j.obj? = some fs ↔ j = obj fs := by cases j <;> simp [obj?]
  simp only [ofJson?, Option.bind_eq_bind, Option.bind_eq_some_iff, Option.pure_def,
    Option.some.injEq, hobj, Fields.need_eq_some_iff, Fields.getD_eq_some_iff,
    Kind.ofFields?_eq_some_iff]
  constructor
  · rintro ⟨fs, rfl, type, ht, kind, ⟨rfl, hk⟩, span, hl, rfl⟩
    exact ⟨fs, rfl, ht, hk, hl⟩
  · rintro ⟨fs, rfl, ht, hk, hl⟩
    exact ⟨fs, rfl, _, ht, _, ⟨rfl, hk⟩, _, hl, rfl⟩

theorem StandsIn.congr {t : Token} {fs fs' : Fields} (h : t.StandsIn fs)
    (hfs : ∀ key ∈ t.keys, fs'.values key = fs.values key) : t.StandsIn fs' := by
  have ht := hfs "type" (by simp [keys])
  have hl := hfs "loc" (by simp [keys])
  exact ⟨ht ▸ h.type, h.kind.congr fun key hkey => hfs key (by simp [keys, hkey]), hl ▸ h.loc⟩

theorem StandsIn.fits {t : Token} {fs : Fields} (h : t.StandsIn fs) : t.span.Fits := by
  rcases h.loc with ⟨j, -, hj⟩ | ⟨-, ht⟩
  · exact Span.fits_of_ofJson? hj
  · rw [ht]
    exact ⟨⟨by decide, by decide⟩, ⟨by decide, by decide⟩⟩

theorem StandsIn.filledIn {t : Token} {fs : Fields} (h : t.StandsIn fs) {p : String × Json}
    (hp : p ∈ t.fields) (hn : fs.values p.1 = []) :
    p = ("loc", ({} : Span).toJson) ∨ p.1 ∈ t.kind.optional ∧ p.2 = .null := by
  rw [fields, List.mem_append, List.mem_cons, List.mem_singleton] at hp
  rcases hp with (rfl | hp) | rfl
  · obtain ⟨_, hj, -⟩ := h.type
    cases hn.symm.trans hj
  · rcases h.kind p hp with hj | ⟨-, ho, hv⟩ | ⟨-, hj, -⟩
    · cases hn.symm.trans hj
    · exact .inr ⟨ho, hv⟩
    · cases hn.symm.trans hj
  · rcases h.loc with ⟨_, hj, -⟩ | ⟨-, ht⟩
    · cases hn.symm.trans hj
    · rw [ht]
      exact .inl rfl

theorem nodup_keys (t : Token) : t.keys.Nodup := by
  rcases t with ⟨kind, span⟩
  cases kind <;> simp [keys, Kind.keys, Kind.fields]

theorem map_fields (t : Token) : t.fields.map (·.1) = t.keys := by
  simp [fields, keys, Kind.keys]

theorem standsIn_fields {t : Token} (h : t.span.Fits) : t.StandsIn t.fields := by
  have hl : ∀ p ∈ t.fields, t.fields.values p.1 = [p.2] := fun p hp =>
    Fields.values_of_mem (t.map_fields ▸ t.nodup_keys) hp
  constructor
  · exact ⟨_, hl ("type", _) (.head _), rfl⟩
  · exact fun p hp => .written (hl p (by simp [fields, hp]))
  · exact .inl ⟨_, hl ("loc", _) (List.mem_append_right _ (.head _)), Span.ofJson?_toJson h⟩

theorem ofJson?_toJson {t : Token} (h : t.span.Fits) : ofJson? t.toJson = some t :=
  ofJson?_eq_some_iff.2 ⟨_, rfl, standsIn_fields h⟩

end Token

/-- **A token is read back from what is written, and so is a token that was read**, whatever else
stood in its object and whatever was missing. -/
theorem token_roundTrip :
    (∀ t : Token, t.span.Fits → Token.ofJson? t.toJson = some t) ∧
    (∀ (j : Json) (t : Token), Token.ofJson? j = some t →
      Token.ofJson? t.toJson = some t ∧
      ∃ fs written : Fields, j = obj fs ∧ t.toJson = obj written ∧ written.map (·.1) = t.keys ∧
        (∀ fs' : Fields, (∀ key ∈ t.keys, fs'.values key = fs.values key) →
          Token.ofJson? (obj fs') = some t) ∧
        ∀ p ∈ written, fs.values p.1 = [] →
          p = ("loc", ({} : Span).toJson) ∨ p.1 ∈ t.kind.optional ∧ p.2 = .null) ∧
    ∀ k k' : Kind, k.type = k'.type ↔ k.bare = k'.bare := by
  refine ⟨fun t => Token.ofJson?_toJson, fun j t h => ?_, fun _ _ => Kind.type_eq_iff⟩
  obtain ⟨fs, rfl, ht⟩ := Token.ofJson?_eq_some_iff.1 h
  exact ⟨Token.ofJson?_toJson ht.fits, fs, t.fields, rfl, rfl, t.map_fields,
    fun fs' hfs => Token.ofJson?_eq_some_iff.2 ⟨fs', rfl, ht.congr hfs⟩, fun _ => ht.filledIn⟩

def loopFields : Fields :=
  [("code", str "xs"), ("type", nat 31), ("depth", nat 2), ("val", str "x")]

def loopToken : Token := ⟨.each "x" none "xs", {}⟩

theorem token_roundTrip_loop :
    Token.ofJson? (obj loopFields) = some loopToken ∧
    Token.ofJson? loopToken.toJson = some loopToken ∧
    Token.ofJson? (Token.toJson ⟨.attr ⟨"open", .flag true, false⟩, .onLine 3⟩) =
      some ⟨.attr ⟨"open", .flag true, false⟩, .onLine 3⟩ :=
  have h : Token.ofJson? (obj loopFields) = some loopToken := by decide +kernel
  ⟨h, (token_roundTrip.2.1 _ _ h).1,
    token_roundTrip.1 _ ⟨⟨by decide, by decide⟩, ⟨by decide, by decide⟩⟩⟩

end PugPretty
