import PugPretty.Proofs.AttributeLists
import PugPretty.Proofs.LineStarts

/-!
# Broken lists

Whether an attribute list is broken over lines is decided where it opens, and no item changes that.
In a broken list every item is written behind a line break and one unit of indentation more than the
element has, and the closing parenthesis behind a line break and the indentation of the element
(`brokenList`).
-/

namespace PugPretty

open Text

/-! ## Items -/

section
variable {ε : Type} (style : Style) (page : Page) (f : Formatter ε) {s : Sheet ε} {x y z : Text}
  {b : Bool} {c : Session ε}

def commaText (o : Outline) (name : String) : Text :=
  if o.written ≠ 0 ∧ needsComma style name = true then [','] else []

theorem text_brokenItem (o : Outline) (it : Item) :
    ∃ value, ((itemsContent style page true o.depth (o.written = 0) [it]).resolve f c).1 =
      commaText style o it.name ++ '\n' :: Sheet.indentation page (o.depth + 1) ++
        (it.name.toList ++ value) := by
  have hgap : gapText style page true o.depth (o.written = 0) it.name =
      commaText style o it.name ++ '\n' :: Sheet.indentation page (o.depth + 1) := by
    unfold gapText commaText breakText
    by_cases h0 : o.written = 0 <;> by_cases hn : needsComma style it.name = true <;> simp [h0, hn]
  simp only [itemsContent, Item.content, List.append_nil, Content.resolve_plain, hgap]
  exact ⟨_, rfl⟩

theorem Attribute.name_itemWith? {a : Attribute} {waiting : List Text} {it : Item}
    (h : a.itemWith? style waiting = some it) : it.name = a.name ∧ a.ids style = [] := by
  unfold Attribute.itemWith? Attribute.item? at h
  unfold Attribute.ids
  cases hr : a.role style.classes with
  | id name => rw [hr] at h; cases h
  | keep => rw [hr] at h; cases h; exact ⟨rfl, rfl⟩
  | merge classes => rw [hr] at h; cases h; exact ⟨rfl, rfl⟩
  | split simple others =>
    rw [hr] at h
    dsimp only at h
    split at h
    · cases h
    · cases h; exact ⟨rfl, rfl⟩

theorem text_brokenAttribute (h : s.Reads x y z true c) (o : Outline) {a : Attribute}
    (hi : (a.itemWith? style o.pending).isSome = true) :
    ∃ value, (Sheet.applyAll page f (writeAttribute style a o).1 s).draft.text =
      x ++ (y ++ classText (a.classNames style)) ++
        (z ++ commaText style o a.name ++ '\n' :: Sheet.indentation page (o.depth + 1) ++
          (a.name.toList ++ value)) := by
  obtain ⟨it, hit⟩ := Option.isSome_iff_exists.1 hi
  obtain ⟨hname, hids⟩ := Attribute.name_itemWith? style hit
  have h1 := (reads_writeAttribute style page f h o a).text
  obtain ⟨value, hv⟩ := text_brokenItem style page f (c := c) o it
  rw [hit, hids, Option.toList_some, hv, hname] at h1
  refine ⟨value, h1.trans ?_⟩
  simp [idText]

/-! ## The three tokens of a list -/

theorem broken_openList_nil (o : Outline) (s : Sheet ε) :
    (Sheet.applyAll page f (openList style [] o).1 s).broken = false := by
  simp only [openList, List.isEmpty_nil, if_true, Sheet.applyAll_cons]
  unfold flushPending
  split
  · rfl
  · simp only [Sheet.applyAll_cons, Sheet.applyAll_nil, Sheet.apply_put]; rfl

theorem exists_reads_openList (h : s.Reads x y z b c) {o : Outline}
    (hw : style.classes ≠ .inList → o.pending = []) (a : Attribute) (run : List Attribute) :
    let es := openList style (a :: run) o
    es.2.listOpen = true ∧ ∃ z' b', (Sheet.applyAll page f es.1 s).Reads x (y ++ z) z' b' c ∧
      (es.2.written ≠ 0 → z' = '(' :: breakText page b' (o.depth + 1) [] ++
        ("class=".toList ++ classValue style o.pending)) := by
  intro es
  obtain ⟨h1, ho⟩ := reads_openList style page f h hw a run
  have ho : es.2 = _ := ho
  rw [ho]
  cases hx : extraClass? style o.pending (a :: run) with
  | none =>
    rw [hx] at h1
    exact ⟨rfl, _, _, h1, fun h0 => absurd rfl h0⟩
  | some v =>
    rw [hx] at h1
    refine ⟨rfl, _, _, h1, fun _ => ?_⟩
    rw [← value_extraClass? hx]
    simp [itemsContent, classItem, Item.content, Content.resolve, gapText]

theorem text_closeList (h : s.Reads x y z true c) {o : Outline} (hl : o.listOpen = true)
    (hw : o.written ≠ 0) {stop : Token} (hs : stop.kind = .endAttributes) (before : Option Token)
    (rest : List Token) :
    (Sheet.applyAll page f (closeList ⟨before, stop, rest⟩ o).1 s).draft.text =
      s.draft.text ++ '\n' :: Sheet.indentation page o.depth ++ ')' :: spaceText stop rest := by
  have hclose : closing o = [.softBreak o.depth [], .say ")"] := by
    unfold closing
    rw [hl, if_neg (by simp), if_neg hw]
  have h1 := reads_spaceBehind page f
    (((h.softBreak page f o.depth []).put page f [')']).endGroup page f) before hs rest
  rw [closeList_eq, hclose, h.text]
  refine h1.text.trans ?_
  simp [breakText]

theorem reads_attributeRun (rest : List Token) : ∀ (ts : List Token) (before : Option Token)
    (o : Outline) {s : Sheet ε} {x y z : Text} {c : Session ε},
    (∀ t ∈ ts, t.attribute?.isSome = true) → s.Reads x y z b c →
    let es := siteEdits style (sitesUpTo before ts rest) o
    (∃ x' y' z' c', (Sheet.applyAll page f es.1 s).Reads x' y' z' b c') ∧
      ∃ w ps, es.2 = { o with written := w, pending := ps }
  | [], before, o, s, x, y, z, c, _, h => ⟨⟨x, y, z, c, h⟩, _, _, rfl⟩
  | t :: ts, before, o, s, x, y, z, c, hts, h => by
    obtain ⟨ht, hts⟩ := List.forall_mem_cons.1 hts
    obtain ⟨a, ha⟩ := Option.isSome_iff_exists.1 ht
    have hk := kind_of_attribute? ha
    have h1 := reads_writeAttribute style page f h o a
    obtain ⟨w, ps, ho⟩ := outline_writeAttribute style o a
    obtain ⟨h2, w', ps', ho2⟩ := reads_attributeRun rest ts (some t) (writeAttribute style a o).2 hts h1
    intro es
    simp only [es, sitesUpTo, siteEdits, Sheet.applyAll_append]
    rw [tokenEdits_attr style (s := ⟨before, t, ts ++ rest⟩) hk]
    exact ⟨h2, w', ps', by rw [ho2, ho]⟩

end

/-! ## Whole lists -/

/-- What the tokens of a list write that is broken over lines, in front of which `pre` stands. -/
structure BrokenList {ε : Type} (style : Style) (l : Layout) (page : Page) (f : Formatter ε)
    (pre : List Token) (start : Token) (as : List Token) (stop : Token) (post : List Token) : Prop where
  /-- Waiting classes that no attribute takes in are an item of their own. -/
  waiting : let before := sheetAfter style page f pre (start :: (as ++ stop :: post))
    (outlineAfter style (pre ++ [start]) (as ++ stop :: post)).written ≠ 0 →
      (sheetAfter style page f (pre ++ [start]) (as ++ stop :: post)).draft.text =
        before.draft.text ++ '(' :: '\n' :: l.units (nesting pre + 1) ++
          ("class=".toList ++
            classValue style (outlineAfter style pre (start :: (as ++ stop :: post))).pending)
  item : ∀ front t back a, as = front ++ t :: back → t.attribute? = some a →
    let rest := back ++ stop :: post
    let o := outlineAfter style (pre ++ [start] ++ front) (t :: rest)
    (a.itemWith? style o.pending).isSome = true →
      ∃ x y z value, (sheetAfter style page f (pre ++ [start] ++ front) (t :: rest)).draft.Parts x y z ∧
        (sheetAfter style page f (pre ++ [start] ++ front ++ [t]) rest).draft.text =
          x ++ (y ++ classText (a.classNames style)) ++
            (z ++ commaText style o a.name ++ '\n' :: l.units (nesting pre + 1) ++
              (a.name.toList ++ value))
  closing : (outlineAfter style (pre ++ [start] ++ as) (stop :: post)).written ≠ 0 →
    (sheetAfter style page f (pre ++ [start] ++ as ++ [stop]) post).draft.text =
      (sheetAfter style page f (pre ++ [start] ++ as) (stop :: post)).draft.text ++
        '\n' :: l.units (nesting pre) ++ ')' :: spaceText stop post

section
variable {ε : Type} (style : Style) {l : Layout} {page : Page} (hl : page.Follows l)
  (f : Formatter ε)

theorem attributeRun_of_isSome {t : Token} (ht : t.attribute?.isSome = true) (rest : List Token) :
    ∃ a, attributeRun (t :: rest) = a :: attributeRun rest := by
  obtain ⟨a, ha⟩ := Option.isSome_iff_exists.1 ht
  obtain ⟨kind, span⟩ := t
  obtain rfl : kind = .attr a := kind_of_attribute? ha
  exact ⟨a, rfl⟩

variable {pre as post : List Token} {start stop : Token} (hs : start.kind = .startAttributes)
  (has : ∀ t ∈ as, t.attribute?.isSome = true) (he : stop.kind = .endAttributes)

include hs has he in
theorem reads_brokenList {x y z : Text}
    (hp : (sheetAfter style page f pre (start :: (as ++ stop :: post))).draft.Parts x y z)
    (hb : (sheetAfter style page f (pre ++ [start]) (as ++ stop :: post)).broken = true) :
    let o := outlineAfter style (pre ++ [start]) (as ++ stop :: post)
    ∃ z', (sheetAfter style page f (pre ++ [start]) (as ++ stop :: post)).Reads x (y ++ z) z' true
        (sheetAfter style page f pre (start :: (as ++ stop :: post))).session ∧
      o.depth = nesting pre ∧ o.listOpen = true ∧
      (o.written ≠ 0 → z' = '(' :: '\n' :: Sheet.indentation page (nesting pre + 1) ++
        ("class=".toList ++
          classValue style (outlineAfter style pre (start :: (as ++ stop :: post))).pending)) := by
  have hd : (outlineAfter style (pre ++ [start]) (as ++ stop :: post)).depth = nesting pre := by
    rw [depth_outlineAfter, nesting_snoc, hs]; rfl
  rw [sheetAfter_snoc, tokenEdits_start style hs] at hb
  rw [outlineAfter_snoc, tokenEdits_start style hs] at hd
  rw [outlineAfter_snoc, sheetAfter_snoc, tokenEdits_start style hs]
  cases as with
  | nil =>
    have hnil : attributeRun ([] ++ stop :: post) = [] := by
      obtain ⟨kind, span⟩ := stop
      obtain rfl : kind = .endAttributes := he
      rfl
    simp only [hnil, broken_openList_nil] at hb
    cases hb
  | cons t ts =>
    obtain ⟨a, ha⟩ := attributeRun_of_isSome (has t List.mem_cons_self) (ts ++ stop :: post)
    obtain ⟨ho, z', b', h1, hz⟩ := exists_reads_openList style page f ⟨hp, rfl, rfl⟩
      (fun hc => pending_outlineAfter style hc pre (start :: (t :: ts ++ stop :: post))) a
      (attributeRun (ts ++ stop :: post))
    rw [← ha] at ho h1 hz
    obtain rfl : b' = true := h1.broken.symm.trans hb
    rw [depth_outlineAfter] at hz
    exact ⟨z', h1, hd, ho, hz⟩

include hl hs has he in
theorem brokenList {x y z : Text}
    (hp : (sheetAfter style page f pre (start :: (as ++ stop :: post))).draft.Parts x y z)
    (hb : (sheetAfter style page f (pre ++ [start]) (as ++ stop :: post)).broken = true) :
    BrokenList style l page f pre start as stop post := by
  obtain ⟨z', h, hd, ho, hz⟩ := reads_brokenList style f hs has he hp hb
  -- every part of the list leaves it open and broken
  have hstate : ∀ front back, as = front ++ back →
      (∃ x y z c, (sheetAfter style page f (pre ++ [start] ++ front) (back ++ stop :: post)).Reads
        x y z true c) ∧
      (outlineAfter style (pre ++ [start] ++ front) (back ++ stop :: post)).depth = nesting pre ∧
      (outlineAfter style (pre ++ [start] ++ front) (back ++ stop :: post)).listOpen = true := by
    rintro front back rfl
    rw [List.append_assoc front] at h hd ho
    obtain ⟨h1, w, ps, ho1⟩ := reads_attributeRun style page f (back ++ stop :: post) front
      (pre ++ [start]).getLast? (outlineAfter style (pre ++ [start]) (front ++ (back ++ stop :: post)))
      (fun t ht => has t (List.mem_append_left _ ht)) h
    rw [sheetAfter_append style page f (pre ++ [start]), outlineAfter_append style (pre ++ [start]), ho1]
    exact ⟨h1, hd, ho⟩
  refine ⟨fun hw => ?_, ?_, fun hw => ?_⟩
  · rw [h.text, hp.text, hz hw, indentation_eq_units hl]
    simp
  · rintro front t back a rfl ha rest o hi
    obtain ⟨⟨x, y, z, c, h1⟩, hd1, -⟩ := hstate front (t :: back) rfl
    obtain ⟨value, hv⟩ := text_brokenAttribute style page f h1 o hi
    have hdo : o.depth = nesting pre := hd1
    rw [hdo, indentation_eq_units hl] at hv
    refine ⟨x, y, z, value, h1.parts, ?_⟩
    rw [sheetAfter_snoc, tokenEdits_attr style (kind_of_attribute? ha)]
    exact hv
  · obtain ⟨⟨x, y, z, c, h1⟩, hd1, ho1⟩ := hstate as [] (List.append_nil _).symm
    rw [List.nil_append] at h1 hd1 ho1
    have hv := text_closeList page f h1 ho1 hw he (pre ++ [start] ++ as).getLast? post
    rw [hd1, indentation_eq_units hl] at hv
    rw [sheetAfter_snoc, tokenEdits_end style (s := ⟨_, stop, post⟩) he]
    exact hv

end

end PugPretty
