import PugPretty.Proofs.ElementHead
import PugPretty.Proofs.LayoutFreedom

/-!
# The places for shorthand

A draft keeps its two places as numbers while the text around them grows and shrinks. `InPlace` says
that the numbers still are places in the text, in their order, and it is another way to say that the
draft has its three parts (`inPlace_iff`). It holds after every token in front of the end of the
stream, within lists as well. The end of the stream cuts off line feeds, and with them a place that
stood behind two of them; nothing is inserted any more then.
-/

namespace PugPretty

open Text

/-! ## Places in a text -/

def Text.IsBoundary (t : Text) (n : Nat) : Prop := ∃ a b, t = a ++ b ∧ byteLength a = n

theorem byteLength_eq_zero {t : Text} (h : byteLength t = 0) : t = [] := by
  cases t with
  | nil => rfl
  | cons c t =>
    have hc := c.utf8Size_pos
    have ht : byteLength (c :: t) = c.utf8Size + byteLength t := by simp [byteLength]
    omega

theorem prefix_of_byteLength_le {a b a' b' : Text} (h : a ++ b = a' ++ b')
    (hl : byteLength a ≤ byteLength a') : a <+: a' := by
  rcases List.prefix_or_prefix_of_prefix (List.prefix_append a b) (h ▸ List.prefix_append a' b')
    with hp | ⟨w, rfl⟩
  · exact hp
  · rw [byteLength_append] at hl
    obtain rfl : w = [] := byteLength_eq_zero (by omega)
    exact ⟨[], by simp⟩

namespace Draft

structure InPlace (d : Draft) : Prop where
  ordered : d.idAt ≤ d.classAt
  inside : d.classAt ≤ byteLength d.text
  idBoundary : IsBoundary d.text d.idAt
  classBoundary : IsBoundary d.text d.classAt

theorem Parts.inPlace {d : Draft} {x y z : Text} (h : d.Parts x y z) : d.InPlace where
  ordered := by
    rw [h.idAt, h.classAt, byteLength_append]
    exact Nat.le_add_right _ _
  inside := by
    rw [h.text, h.classAt, byteLength_append _ z]
    exact Nat.le_add_right _ _
  idBoundary := ⟨x, y ++ z, h.text.trans (List.append_assoc _ _ _), h.idAt.symm⟩
  classBoundary := ⟨x ++ y, z, h.text, h.classAt.symm⟩

theorem inPlace_iff {d : Draft} : d.InPlace ↔ ∃ x y z, d.Parts x y z := by
  refine ⟨fun h => ?_, fun ⟨_, _, _, h⟩ => h.inPlace⟩
  obtain ⟨x, w, hx, hi⟩ := h.idBoundary
  obtain ⟨xy, z, hxy, hc⟩ := h.classBoundary
  obtain ⟨y, rfl⟩ := prefix_of_byteLength_le (hx.symm.trans hxy) (by rw [hi, hc]; exact h.ordered)
  exact ⟨x, y, z, hxy, hi.symm, hc.symm⟩

/-! ## The end of the text -/

def BehindFeeds (d : Draft) : Prop :=
  ∃ a b, d.text = a ++ b ∧ byteLength a = d.classAt ∧ ['\n', '\n'] <:+ a ∧ ∀ c ∈ b, c = '\n'

theorem dropEndWhile_feeds_append (a : Text) {b : Text} (hb : ∀ c ∈ b, c = '\n') :
    dropEndWhile (· == '\n') (a ++ b) = dropEndWhile (· == '\n') a := by
  have hr : b.reverse.dropWhile (· == '\n') = [] := by
    rw [List.dropWhile_eq_nil_iff]
    exact fun c hc => beq_iff_eq.2 (hb c (List.mem_reverse.1 hc))
  rw [dropEndWhile, List.reverse_append, List.dropWhile_append, hr]
  rfl

theorem dropEndWhile_append_of_ne (a : Text) {b : Text} (hb : ∃ c ∈ b, c ≠ '\n') :
    dropEndWhile (· == '\n') (a ++ b) = a ++ dropEndWhile (· == '\n') b := by
  have hr : (b.reverse.dropWhile (· == '\n')).isEmpty = false := by
    rw [List.isEmpty_eq_false_iff, Ne, List.dropWhile_eq_nil_iff]
    obtain ⟨c, hc, hne⟩ := hb
    exact fun h => hne (beq_iff_eq.1 (h c (List.mem_reverse.2 hc)))
  rw [dropEndWhile, List.reverse_append, List.dropWhile_append, hr]
  simp [dropEndWhile]

theorem not_inPlace_finish {d : Draft} (h : d.BehindFeeds) : ¬ d.finish.InPlace := by
  obtain ⟨_, b, ht, hl, ⟨a, rfl⟩, hb⟩ := h
  intro hp
  have hi : d.classAt ≤ byteLength d.finish.text := hp.inside
  have hcut : dropEndWhile (· == '\n') d.text = dropEndWhile (· == '\n') a := by
    rw [ht, dropEndWhile_feeds_append _ hb, dropEndWhile_feeds_append a (by simp)]
  obtain ⟨n, hn⟩ := exists_lineFeeds a
  have ha := congrArg byteLength hn
  have hf : byteLength ['\n', '\n'] = byteLength ['\n'] + 1 := rfl
  rw [byteLength_append] at ha
  rw [text_finish, hcut, ← hl, byteLength_append, byteLength_append, hf] at hi
  omega

/-- One line feed is left behind the text, so a place may stand behind one. -/
theorem prefix_finish {d : Draft} {a b : Text} (ht : d.text = a ++ b)
    (h : ¬ (['\n', '\n'] <:+ a ∧ ∀ c ∈ b, c = '\n')) : a <+: d.finish.text := by
  rw [text_finish, ht]
  by_cases hb : ∀ c ∈ b, c = '\n'
  · rw [dropEndWhile_feeds_append a hb]
    obtain ⟨n, hn⟩ := exists_lineFeeds a
    match n with
    | 0 =>
      rw [List.replicate_zero, List.append_nil] at hn
      exact hn ▸ List.prefix_append _ _
    | 1 =>
      conv_lhs => rw [hn]
      exact List.prefix_refl _
    | n + 2 =>
      have hs : ['\n', '\n'] <:+ List.replicate (n + 2) '\n' :=
        ⟨List.replicate n '\n', (List.replicate_append_replicate : _ ++ List.replicate 2 '\n' = _)⟩
      exact absurd ⟨hn ▸ hs.trans (List.suffix_append _ _), hb⟩ h
  · have hb' : ∃ c ∈ b, c ≠ '\n' := by
      by_contra hc
      exact hb fun c hm => by_contra fun hne => hc ⟨c, hm, hne⟩
    rw [dropEndWhile_append_of_ne a hb', List.append_assoc]
    exact List.prefix_append _ _

theorem InPlace.finish_iff {d : Draft} (h : d.InPlace) : d.finish.InPlace ↔ ¬ d.BehindFeeds := by
  refine ⟨fun hp hb => not_inPlace_finish hb hp, fun hb => ?_⟩
  obtain ⟨x, y, z, hp⟩ := inPlace_iff.1 h
  obtain ⟨w, hw⟩ := prefix_finish hp.text fun hf => hb ⟨x ++ y, z, hp.text, hp.classAt.symm, hf⟩
  exact inPlace_iff.2 ⟨x, y, w, hw.symm, hp.idAt, hp.classAt⟩

end Draft

/-! ## Lists that write no item -/

theorem exists_list_of_end {stop : Token} (hk : stop.kind = .endAttributes) (post : List Token) :
    ∀ (inList : Bool) (done : List Token), enclosed inList (done ++ stop :: post) = true →
      (inList = true ∧ ∀ t ∈ done, t.attribute?.isSome = true) ∨
        ∃ pre start as, done = pre ++ start :: as ∧ start.kind = .startAttributes ∧
          ∀ t ∈ as, t.attribute?.isSome = true
  | inList, [], h => by
    rw [List.nil_append, enclosed_cons, hk] at h
    exact .inl ⟨h.1, by simp⟩
  | inList, t :: done, h => by
    rw [List.cons_append, enclosed_cons] at h
    rcases exists_list_of_end hk post _ done h.2 with ⟨ho, has⟩ | ⟨pre, start, as, rfl, hs, has⟩
    · cases ht : t.kind with
      | startAttributes => exact .inr ⟨[], t, done, rfl, ht, has⟩
      | attr a =>
        refine .inl ⟨by rw [h.1, ht]; rfl, List.forall_mem_cons.2 ⟨?_, has⟩⟩
        unfold Token.attribute?
        rw [ht]
        rfl
      | _ => rw [ht] at ho; cases ho
    · exact .inr ⟨t :: pre, start, as, rfl, hs, has⟩

section
variable {ε : Type} (style : Style) (page : Page) (f : Formatter ε) {as post : List Token}
  {start stop : Token} (hs : start.kind = .startAttributes)
  (has : ∀ t ∈ as, t.attribute?.isSome = true) (he : stop.kind = .endAttributes)
include hs has he

/-- While a list has no item, its parenthesis ends the text, behind the classes it has given away. -/
theorem reads_bareList {s : Sheet ε} {x y z : Text} {b : Bool} {c : Session ε}
    (h : s.Reads x y z b c) {o : Outline} (hl : o.listOpen = false)
    (hw : style.classes ≠ .inList → o.pending = []) (before : Option Token)
    (ho : (siteEdits style (sitesUpTo before (start :: as) (stop :: post)) o).2.listOpen = true)
    (hz : (siteEdits style (sitesUpTo before (start :: as) (stop :: post)) o).2.written = 0) :
    let attrs := as.filterMap Token.attribute?
    let lead := tokenEdits style ⟨before, start, as ++ stop :: post⟩ o
    let all := siteEdits style (sitesUpTo before (start :: as) (stop :: post)) o
    (Sheet.applyAll page f lead.1 s).draft.Parts x (y ++ z) ['('] ∧
      (Sheet.applyAll page f all.1 s).draft.Parts
        (x ++ idText (attrs.flatMap (Attribute.ids style)))
        (y ++ z ++ classText (attrs.flatMap (Attribute.classNames style))) ['('] := by
  intro attrs lead all
  have hmap : as.map Token.attribute? = attrs.map some := map_attribute? has
  have hlead : lead = openList style attrs o := by
    rw [← attributeRun_append (attribute?_of_end he) post as attrs hmap]
    exact tokenEdits_start style hs
  have hall : all = (lead.1 ++ (siteEdits style (sitesUpTo (some start) as (stop :: post)) lead.2).1,
      (siteEdits style (sitesUpTo (some start) as (stop :: post)) lead.2).2) := rfl
  change all.2.listOpen = true at ho
  change all.2.written = 0 at hz
  rw [hall] at ho hz ⊢
  rw [hlead] at ho hz ⊢
  cases hn : attrs with
  | nil =>
    -- a list without attributes is never opened
    obtain rfl : as = [] := by simpa [hn] using hmap
    rw [hn] at ho
    exact absurd ((openList_nil style o).2.symm.trans ho) (by rw [hl]; exact Bool.false_ne_true)
  | cons a more =>
    rw [hn] at ho hz hmap
    obtain ⟨h1, ho1⟩ := reads_openList style page f h hw a more
    obtain ⟨h2, ho2⟩ := reads_attributes style page f (stop :: post) as (a :: more) (some start)
      (openList style (a :: more) o).2 hmap h1
    -- neither the opening of the list nor one of its attributes has written an item
    rw [ho2] at hz
    obtain ⟨hw0, hi0⟩ := Nat.add_eq_zero_iff.1 hz
    have hmade := List.length_eq_zero_iff.1 ((congrArg Outline.written ho1).symm.trans hw0)
    rw [hmade] at h1 h2
    rw [List.length_eq_zero_iff.1 hi0] at h2
    rw [Sheet.applyAll_append]
    refine ⟨h1.parts, ?_⟩
    simpa [itemsContent, Content.resolve] using h2.parts

end

/-! ## Runs -/

theorem WellFormed.eq_append_eos {done rest : List Token} {e : Token} (h : WellFormed (done ++ rest))
    (hm : e ∈ done) (he : e.kind = .eos) : rest = [] ∧ ∃ body, done = body ++ [e] := by
  obtain ⟨body, more, rfl⟩ := List.append_of_mem hm
  have hnil : more ++ rest = [] := by
    by_contra hne
    refine h.eos_last e ?_ he
    rw [List.append_assoc, List.cons_append, List.dropLast_append_of_ne_nil (List.cons_ne_nil _ _),
      List.dropLast_cons_of_ne_nil hne]
    exact List.mem_append_right _ List.mem_cons_self
  obtain ⟨rfl, rfl⟩ := List.append_eq_nil_iff.1 hnil
  exact ⟨rfl, body, rfl⟩

section
variable {ε : Type} (style : Style) {page : Page} (hp : isBlank page.indentChar = true)
  (f : Formatter ε)
include hp

theorem inPlace_sheetAfter {done rest : List Token} (h : WellFormed (done ++ rest))
    (hn : ∀ t ∈ done, t.kind ≠ .eos) :
    (sheetAfter style page f done rest).draft.InPlace ∧
      (sheetAfter style page f done rest).draft.astray = false := by
  have hd := draws_sheetAfter_of_append style f rest rest hp h.enclosed hn
  obtain ⟨x, y, z, hparts, -⟩ := hd.parts
  exact ⟨hparts.inPlace, hd.steady⟩

omit hp in
theorem draft_eos {e : Token} (he : e.kind = .eos) (done rest : List Token) :
    (sheetAfter style page f (done ++ [e]) rest).draft =
      (sheetAfter style page f done (e :: rest)).draft.finish := by
  rw [sheetAfter_snoc, tokenEdits_eos style (s := ⟨done.getLast?, e, rest⟩) he]
  rfl

theorem ordered_sheetAfter {done rest : List Token} (h : WellFormed (done ++ rest)) :
    (sheetAfter style page f done rest).draft.idAt ≤
        (sheetAfter style page f done rest).draft.classAt ∧
      (sheetAfter style page f done rest).draft.astray = false := by
  by_cases hn : ∀ t ∈ done, t.kind ≠ .eos
  · obtain ⟨hi, ha⟩ := inPlace_sheetAfter style hp f h hn
    exact ⟨hi.ordered, ha⟩
  · -- the end of the stream leaves the places as they are
    obtain ⟨e, hm, he⟩ : ∃ e ∈ done, e.kind = .eos := by simpa using hn
    obtain ⟨rfl, body, rfl⟩ := h.eq_append_eos hm he
    rw [List.append_assoc] at h
    obtain ⟨hi, ha⟩ := inPlace_sheetAfter style hp f h h.ne_eos
    rw [draft_eos style f he]
    exact ⟨hi.ordered, ha⟩

theorem exists_bareList {done post : List Token} {stop : Token} (h : WellFormed (done ++ stop :: post))
    (he : stop.kind = .endAttributes)
    (ho : (outlineAfter style done (stop :: post)).listOpen = true)
    (hz : (outlineAfter style done (stop :: post)).written = 0) :
    ∃ pre start as x y z, done = pre ++ start :: as ∧ start.kind = .startAttributes ∧
      (∀ t ∈ as, t.attribute?.isSome = true) ∧
      (sheetAfter style page f pre (start :: as ++ stop :: post)).draft.Parts x y z ∧
      (sheetAfter style page f (pre ++ [start]) (as ++ stop :: post)).draft.Parts x (y ++ z) ['('] ∧
      (sheetAfter style page f done (stop :: post)).draft.Parts
        (x ++ idText ((as.filterMap Token.attribute?).flatMap (Attribute.ids style)))
        (y ++ z ++ classText ((as.filterMap Token.attribute?).flatMap (Attribute.classNames style)))
        ['('] := by
  rcases exists_list_of_end he post false done h.enclosed with ⟨hf, -⟩ | ⟨pre, start, as, rfl, hs, has⟩
  · cases hf
  rw [List.append_assoc] at h
  have hpre : enclosed false pre = true := enclosed_before (by rw [hs]; rfl) _ _ _ h.enclosed
  obtain ⟨x, y, z, hparts, -⟩ := (draws_sheetAfter style f (start :: as ++ stop :: post) hp hpre
    h.ne_eos).1.parts
  rw [outlineAfter_append] at ho hz
  obtain ⟨h1, h2⟩ := reads_bareList style page f hs has he ⟨hparts, rfl, rfl⟩
    (listOpen_outlineAfter style _ hpre) (fun hc => pending_outlineAfter style hc pre _) _ ho hz
  refine ⟨pre, start, as, x, y, z, rfl, hs, has, hparts, ?_, ?_⟩
  · rw [sheetAfter_snoc]
    exact h1
  · rw [sheetAfter_append]
    exact h2

end

/-- **The places for shorthand stay places in the text**, but for what the end of the stream cuts
off, and an insertion always has its place. -/
theorem format_keepsPlaces {ε : Type} (read : PatternReader) (o : Options) (f : Formatter ε)
    {ts : List Token} (h : WellFormed ts) :
    (format read o f ts).result ≠ .error .strayShorthand ∧
    ∀ ord page, o.readPatterns read = .ok (ord, page) →
      ∀ done rest, ord.arrange ts = done ++ rest →
        let outline := outlineAfter o.style done rest
        let draft := (sheetAfter o.style page f done rest).draft
        (draft.astray = false ∧ draft.idAt ≤ draft.classAt) ∧
        ((∀ t ∈ done, t.kind ≠ .eos) → draft.InPlace) ∧
        (∀ e, rest = [e] → e.kind = .eos →
          let last := (sheetAfter o.style page f (done ++ rest) []).draft
          last.idAt = draft.idAt ∧ last.classAt = draft.classAt ∧
            (last.InPlace ↔ ¬ draft.BehindFeeds)) ∧
        ∀ stop post, rest = stop :: post → stop.kind = .endAttributes → outline.listOpen = true →
          outline.written = 0 →
          ∃ pre start as x y z, done = pre ++ start :: as ∧ start.kind = .startAttributes ∧
            (∀ t ∈ as, t.attribute?.isSome = true) ∧
            (sheetAfter o.style page f pre (start :: as ++ rest)).draft.Parts x y z ∧
            (sheetAfter o.style page f (pre ++ [start]) (as ++ rest)).draft.Parts x (y ++ z) ['('] ∧
            draft.Parts
              (x ++ idText ((as.filterMap Token.attribute?).flatMap (Attribute.ids o.style)))
              (y ++ z ++
                classText ((as.filterMap Token.attribute?).flatMap (Attribute.classNames o.style)))
              ['('] := by
  refine ⟨result_ne_strayShorthand read o f h, fun ord page hs done rest hv => ?_⟩
  have hp := isBlank_indentChar (follows_of_readPatterns hs)
  have hw : WellFormed (done ++ rest) := hv ▸ h.arrange ord
  refine ⟨(ordered_sheetAfter o.style hp f hw).symm,
    fun hn => (inPlace_sheetAfter o.style hp f hw hn).1, ?_, ?_⟩
  · rintro e rfl he
    obtain ⟨hi, -⟩ := inPlace_sheetAfter o.style hp f hw hw.ne_eos
    rw [draft_eos o.style f he]
    exact ⟨rfl, rfl, hi.finish_iff⟩
  · rintro stop post rfl he ho hz
    exact exists_bareList o.style hp f hw he ho hz

def cutLines : List Token :=
  [⟨.tag "p", {}⟩, ⟨.text "é", {}⟩, ⟨.newline, {}⟩, ⟨.newline, {}⟩, ⟨.startAttributes, {}⟩,
    ⟨.attr ⟨"id", .source "'k'", true⟩, {}⟩, ⟨.endAttributes, {}⟩, ⟨.eos, {}⟩]

theorem format_keepsPlaces_cutLines :
    let page : Page := ⟨' ', 2, 2, 80, -1, fun _ => false⟩
    let f : Formatter Empty := fun _ r => .ok r.code
    let draft := fun n => (sheetAfter {} page f (cutLines.take n) (cutLines.drop n)).draft
    WellFormed cutLines ∧ (format wordReader {} f cutLines).result ≠ .error .strayShorthand ∧
      (∀ n ≤ 7, (draft n).InPlace) ∧ (∃ x y, (draft 6).Parts x y ['(']) ∧
      (draft 7).BehindFeeds ∧ ¬ (draft 8).InPlace := by
  intro page f draft
  have h : WellFormed cutLines := by decide
  obtain ⟨hr, hk⟩ := format_keepsPlaces wordReader {} f h
  have hv : ∀ n, AttributeOrder.arrange {} cutLines = cutLines.take n ++ cutLines.drop n :=
    fun n => (List.take_append_drop n cutLines).symm
  have hk' := fun n => hk {} page rfl _ _ (hv n)
  obtain ⟨-, -, -, hparts⟩ := hk' 6
  obtain ⟨-, -, hlast, -⟩ := hk' 7
  obtain ⟨_, _, _, _, _, _, -, -, -, -, -, hp⟩ := hparts _ _ rfl rfl (by decide) (by decide)
  obtain ⟨-, -, hcut⟩ := hlast ⟨.eos, {}⟩ rfl rfl
  have hb : (draft 7).BehindFeeds := ⟨"p#k é\n\n".toList, [], by decide, by decide, by decide, by simp⟩
  have hbody : ∀ n ≤ 7, ∀ t ∈ cutLines.take n, t.kind ≠ .eos := by decide
  exact ⟨h, hr, fun n hn => (hk' n).2.1 (hbody n hn), ⟨_, _, hp⟩, hb, fun hi => hcut.1 hi hb⟩

/-- Two line feeds stood in front of the place for classes, and the end of the stream took one. -/
theorem classAt_beyond_cutLines :
    let page : Page := ⟨' ', 2, 2, 80, -1, fun _ => false⟩
    let draft := (sheetAfter {} page (fun _ r => .ok r.code : Formatter Empty) cutLines []).draft
    WellFormed cutLines ∧ Options.readPatterns wordReader {} = .ok ({}, page) ∧
      AttributeOrder.arrange {} cutLines = cutLines ∧
      draft.text = "p#k é\n".toList ∧ draft.classAt = byteLength draft.text + 1 :=
  ⟨by decide, rfl, rfl, by decide, by decide⟩

end PugPretty
