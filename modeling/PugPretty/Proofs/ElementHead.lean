import PugPretty.Proofs.AttributeLists
import PugPretty.Proofs.Sketch

/-!
# Elements

An element run is a tag, or what stands for one, with shorthand and an attribute list in any order.
`text_elementRun` says what it writes: the name, all ids, all classes, and the list, wherever the ids
and classes stand among its tokens. The draft is read in three parts all along: the name and the ids,
the classes, and the list.
-/

namespace PugPretty

open Text

/-! ## Element runs -/

def Kind.beginsElement (prev : Option Kind) : Kind → Bool
  | tag _ | interpolation _ | call .. => true
  | className _ | idName _ => prev.all Kind.endsLine
  | _ => false

def Kind.isShorthand : Kind → Bool
  | className _ | idName _ => true
  | _ => false

inductive ListTokens : List Token → Prop
  | none : ListTokens []
  | list {start stop : Token} {ts : List Token} : start.kind = .startAttributes →
      (∀ t ∈ ts, t.attribute?.isSome = true) → stop.kind = .endAttributes →
      ListTokens (start :: (ts ++ [stop]))

structure ElementRun (prev : Option Kind) where
  head : Token
  front : List Token
  list : List Token
  back : List Token
  begins : head.kind.beginsElement prev = true
  front_shorthand : ∀ t ∈ front, t.kind.isShorthand = true
  list_tokens : ListTokens list
  back_shorthand : ∀ t ∈ back, t.kind.isShorthand = true

def Token.ids (style : Style) (t : Token) : List Text :=
  match t.kind with
  | .idName name => [name.toList]
  | .attr a => a.ids style
  | _ => []

def Token.classNames (style : Style) (t : Token) : List Text :=
  match t.kind with
  | .className name => [name.toList]
  | .attr a => a.classNames style
  | _ => []

/-- The name of an element, which is left out of a `div` that shorthand implies. -/
def headText (style : Style) (head : Token) (rest : List Token) : Text :=
  match head.kind with
  | .tag name =>
    if name ≠ "div" ∨ style.explicitDiv = true ∨ impliesDiv style.classes ⟨none, head, rest⟩ = false
    then name.toList else []
  | .call name args => '+' :: name.toList ++ argumentList args
  | .interpolation code => inlineCode code.toList true
  | _ => []

def trailingSpace (ts rest : List Token) : Text :=
  (ts.getLast?.map fun t => spaceText t rest).getD []

namespace ElementRun

variable {prev : Option Kind} (run : ElementRun prev)

def tokens : List Token := run.head :: (run.front ++ (run.list ++ run.back))

def attributes : List Attribute := run.list.filterMap Token.attribute?

def ids (style : Style) : List Text := run.tokens.flatMap (Token.ids style)

def classNames (style : Style) : List Text := run.tokens.flatMap (Token.classNames style)

def headText (style : Style) (post : List Token) : Text :=
  PugPretty.headText style run.head (run.front ++ (run.list ++ run.back) ++ post)

def opened (style : Style) (post : List Token) : Text :=
  run.headText style post ++
    idText ((run.head :: run.front).flatMap (Token.ids style)) ++
    classText ((run.head :: run.front).flatMap (Token.classNames style)) ++ ['(']

def listContent (style : Style) (page : Page) (before : Text) (depth : Nat) (post : List Token) :
    Content :=
  PugPretty.listContent style page
    (page.breaks (columnOf page.tab (before ++ run.opened style post))
      (.of style.classes run.attributes none))
    depth (run.attributes.filterMap (Attribute.item? style))

end ElementRun

/-! ## Shorthand -/

section
variable (style : Style)

theorem flushAtHeadEnd_empty {s : Site} {o : Outline} (hp : o.pending = []) :
    flushAtHeadEnd style s o = ([], o) := by
  unfold flushAtHeadEnd flushPending
  simp [hp]

def shorthandEdits (s : Site) : List Edit :=
  match s.token.kind with
  | .className name =>
    .addClass name.toList :: (if s.next?.any Kind.isText then [.say " "] else [])
  | .idName name => [.addId name.toList]
  | _ => []

theorem tokenEdits_shorthand (hc : style.classes ≠ .inList) {s : Site} {o : Outline}
    (hk : s.token.kind.isShorthand = true) (hp : o.pending = []) :
    tokenEdits style s o =
      ((if s.opensLine then s.indentation o.depth ++ [.mark] else []) ++ shorthandEdits s, o) := by
  unfold tokenEdits shorthandEdits
  cases h : s.token.kind with
  | className name => simp [classEdits, hc]
  | idName name => simp [idEdits, flushAtHeadEnd_empty style hp]
  | _ => rw [h] at hk; cases hk

end

section
variable {ε : Type} (style : Style) (page : Page) (f : Formatter ε) {s : Sheet ε} {x y z : Text}
  {b : Bool} {c : Session ε}

theorem reads_shorthandEdits (h : s.Reads x y z b c) (before : Option Token) {t : Token}
    (hk : t.kind.isShorthand = true) (rest : List Token) :
    (Sheet.applyAll page f (shorthandEdits ⟨before, t, rest⟩) s).Reads
      (x ++ idText (t.ids style)) (y ++ classText (t.classNames style)) (z ++ spaceText t rest) b c := by
  unfold shorthandEdits Token.ids Token.classNames spaceText Site.next?
  cases hkind : t.kind with
  | className name =>
    have h1 := h.addClass page f name.toList
    have h2 := h1.put page f [' ']
    simp only [idText, classText, List.flatMap_nil, List.flatMap_singleton, List.append_nil]
    cases rest.head?.map Token.kind with
    | none => simpa using h1
    | some k =>
      cases k with
      | text val => exact h2
      | _ => simpa [Kind.isText] using h1
  | idName name =>
    have h1 := h.addId page f name.toList
    simpa [idText, classText] using h1
  | _ => rw [hkind] at hk; cases hk

theorem spaceText_of_shorthand (t : Token) {u : Token} (hu : u.kind.isShorthand = true)
    (rest : List Token) : spaceText t (u :: rest) = [] := by
  unfold spaceText
  cases h : u.kind with
  | className name | idName name => cases t.kind <;> simp [h]
  | _ => rw [h] at hu; cases hu

theorem spaceText_of_start (t : Token) {u : Token} (hu : u.kind = .startAttributes)
    (rest : List Token) : spaceText t (u :: rest) = [] := by
  unfold spaceText
  cases t.kind <;> simp [hu]

theorem trailingSpace_cons (t : Token) {ts : List Token} (hts : ∀ u ∈ ts, u.kind.isShorthand = true)
    (rest : List Token) :
    spaceText t (ts ++ rest) ++ trailingSpace ts rest = trailingSpace (t :: ts) rest := by
  cases ts with
  | nil => simp [trailingSpace]
  | cons u ts =>
    rw [List.cons_append, spaceText_of_shorthand t (hts u List.mem_cons_self)]
    simp [trailingSpace]

theorem reads_shorthands (hc : style.classes ≠ .inList) (rest : List Token) {o : Outline}
    (hp : o.pending = []) :
    ∀ (ts : List Token) (before : Option Token) {s : Sheet ε} {x y z : Text},
      (∀ t ∈ ts, t.kind.isShorthand = true) → (before.map Token.kind).all Kind.endsLine = false →
      s.Reads x y z b c →
      let es := siteEdits style (sitesUpTo before ts rest) o
      (Sheet.applyAll page f es.1 s).Reads (x ++ idText (ts.flatMap (Token.ids style)))
          (y ++ classText (ts.flatMap (Token.classNames style))) (z ++ trailingSpace ts rest) b c ∧
        es.2 = o
  | [], _, s, x, y, z, _, _, h => by
    simpa [sitesUpTo, siteEdits, idText, classText, trailingSpace] using h
  | t :: ts, before, s, x, y, z, hts, hb, h => by
    obtain ⟨ht, hts⟩ := List.forall_mem_cons.1 hts
    have hopen : Site.opensLine ⟨before, t, ts ++ rest⟩ = false := hb
    have ht' : ((some t).map Token.kind).all Kind.endsLine = false := by
      cases hk : t.kind with
      | className name | idName name => simp [hk, Kind.endsLine]
      | _ => rw [hk] at ht; cases ht
    have h1 := reads_shorthandEdits style page f h before ht (ts ++ rest)
    obtain ⟨h2, ho⟩ := reads_shorthands hc rest hp ts (some t) hts ht' h1
    simp only [sitesUpTo, siteEdits]
    rw [tokenEdits_shorthand style hc (s := ⟨before, t, ts ++ rest⟩) ht hp, hopen]
    simp only [Bool.false_eq_true, if_false, List.nil_append, Sheet.applyAll_append]
    refine ⟨?_, ho⟩
    rw [← trailingSpace_cons t hts rest]
    simpa only [List.flatMap_cons, idText_append, classText_append, List.append_assoc] using h2

/-! ## The beginning of an element -/

theorem reads_mark (site : Site) (depth : Nat) (t : Text) (s : Sheet ε) :
    (Sheet.applyAll page f (site.indentation depth ++ [.put t, .mark]) s).Reads
      (s.draft.text ++ leadText page site.prev? depth ++ t) [] [] s.broken s.session := by
  rw [Sheet.applyAll_append, applyAll_indentation]
  simp only [Sheet.applyAll_cons, Sheet.apply_put, Sheet.applyAll_nil]
  rw [← Draft.text_write, ← Draft.text_write]
  exact ⟨Draft.Parts.mark _, rfl, rfl⟩

theorem reads_mark_nil (site : Site) (depth : Nat) (s : Sheet ε) :
    (Sheet.applyAll page f (site.indentation depth ++ [.mark]) s).Reads
      (s.draft.text ++ leadText page site.prev? depth) [] [] s.broken s.session := by
  rw [Sheet.applyAll_append, applyAll_indentation, ← Draft.text_write]
  exact ⟨Draft.Parts.mark _, rfl, rfl⟩

theorem reads_shorthandHead (hc : style.classes ≠ .inList) (before : Option Token) {head : Token}
    (hk : head.kind.beginsElement (before.map Token.kind) = true)
    (hs : head.kind.isShorthand = true) (rest : List Token) {o : Outline} (hp : o.pending = [])
    (s : Sheet ε) :
    let es := tokenEdits style ⟨before, head, rest⟩ o
    (Sheet.applyAll page f es.1 s).Reads
        (s.draft.text ++ leadText page (before.map Token.kind) o.depth ++ idText (head.ids style))
        (classText (head.classNames style)) (spaceText head rest) s.broken s.session ∧
      es.2 = o := by
  intro es
  have hopen : Site.opensLine ⟨before, head, rest⟩ = true := by
    cases h : head.kind with
    | className name | idName name => rw [h] at hk; exact hk
    | _ => simp [h, Kind.isShorthand] at hs
  have h1 := reads_shorthandEdits style page f
    (reads_mark_nil page f ⟨before, head, rest⟩ o.depth s) before hs rest
  simp only [es]
  rw [tokenEdits_shorthand style hc (s := ⟨before, head, rest⟩) hs hp, hopen, if_pos rfl,
    Sheet.applyAll_append]
  exact ⟨h1, rfl⟩

theorem headText_of_shorthand {head : Token} (hs : head.kind.isShorthand = true)
    (rest : List Token) : headText style head rest = [] := by
  unfold headText
  cases h : head.kind with
  | className name | idName name => rfl
  | _ => simp [h, Kind.isShorthand] at hs

theorem reads_head (hc : style.classes ≠ .inList) (before : Option Token) {head : Token}
    (hk : head.kind.beginsElement (before.map Token.kind) = true) (rest : List Token) {o : Outline}
    (hp : o.pending = []) (s : Sheet ε) :
    let es := tokenEdits style ⟨before, head, rest⟩ o
    (Sheet.applyAll page f es.1 s).Reads
        (s.draft.text ++ leadText page (before.map Token.kind) o.depth ++ headText style head rest ++
          idText (head.ids style))
        (classText (head.classNames style)) (spaceText head rest) s.broken s.session ∧
      es.2 = o := by
  by_cases hs : head.kind.isShorthand = true
  · rw [headText_of_shorthand style hs, List.append_nil]
    exact reads_shorthandHead style page f hc before hk hs rest hp s
  -- a named head writes its name in front of the mark, and the other two parts are empty
  have hlead : s.draft.text ++ leadText page (Site.prev? ⟨before, head, rest⟩) o.depth =
      s.draft.text ++ leadText page (before.map Token.kind) o.depth := rfl
  have hmark := fun t => reads_mark page f ⟨before, head, rest⟩ o.depth t s
  have hnil := reads_mark_nil page f ⟨before, head, rest⟩ o.depth s
  simp only [hlead] at hmark hnil
  unfold tokenEdits headText Token.ids Token.classNames spaceText
  cases h : head.kind with
  | tag name =>
    have himp : impliesDiv style.classes ⟨before, head, rest⟩ =
        impliesDiv style.classes ⟨none, head, rest⟩ := rfl
    simp only [tagEdits]
    rw [himp]
    refine ⟨?_, trivial⟩
    split
    · simpa [idText, classText, Edit.say] using hmark name.toList
    · simpa [idText, classText] using hnil
  | call name args => exact ⟨by simpa [idText, classText] using hmark _, rfl⟩
  | interpolation code => exact ⟨by simpa [idText, classText] using hmark _, rfl⟩
  | className name | idName name => rw [h] at hs; exact absurd rfl hs
  | _ => rw [h] at hk; cases hk

end

/-! ## Nothing waits -/

def Kind.holdsClasses : Kind → Bool
  | className _ | idName _ | startAttributes | attr _ => true
  | _ => false

section
variable (style : Style)

theorem pending_openList (run : List Attribute) {o : Outline}
    (hp : o.pending = []) : (openList style run o).2.pending = [] := by
  cases run with
  | nil => rw [openList_empty style hp]; exact hp
  | cons a as => rw [openList_eq style (fun _ => hp), hp]; rfl

theorem pending_writeAttribute (a : Attribute) {o : Outline} (hp : o.pending = []) :
    (writeAttribute style a o).2.pending = [] := by
  unfold writeAttribute
  dsimp only
  split
  · dsimp only
    split
    · exact hp
    · exact hp
  · rfl
  · exact hp
  · exact hp

/-- Only the head of an element and its attributes change what waits. -/
theorem pending_of_other {s : Site} (h : s.token.kind.holdsClasses = false) (o : Outline) :
    (tokenEdits style s o).2.pending = o.pending := by
  cases hk : s.token.kind with
  | className | idName | startAttributes | attr => rw [hk] at h; cases h
  | endAttributes => rw [tokenEdits_end style hk, closeList_eq]
  | doctype name =>
    unfold tokenEdits
    rw [hk]
    dsimp only
    split <;> rfl
  | path file =>
    unfold tokenEdits
    rw [hk]
    dsimp only
    split <;> rfl
  | _ => unfold tokenEdits; rw [hk]

theorem pending_tokenEdits (hc : style.classes ≠ .inList) (s : Site) {o : Outline}
    (hp : o.pending = []) : (tokenEdits style s o).2.pending = [] := by
  cases hk : s.token.kind with
  | className name | idName name =>
    rw [tokenEdits_shorthand style hc (by rw [hk]; rfl) hp]; exact hp
  | startAttributes => rw [tokenEdits_start style hk]; exact pending_openList style _ hp
  | attr a => rw [tokenEdits_attr style hk]; exact pending_writeAttribute style a hp
  | _ =>
    rw [pending_of_other style (by rw [hk]; rfl) o]
    exact hp

theorem pending_outlineAfter (hc : style.classes ≠ .inList) (done rest : List Token) :
    (outlineAfter style done rest).pending = [] := by
  have hs : ∀ (ss : List Site) (o : Outline), o.pending = [] →
      (siteEdits style ss o).2.pending = [] := by
    intro ss
    induction ss with
    | nil => intro o hp; exact hp
    | cons s ss ih => intro o hp; exact ih _ (pending_tokenEdits style hc s hp)
  exact hs _ {} rfl

end

/-! ## The whole run -/

theorem endsLine_of_begins {prev : Option Kind} {k : Kind} (h : k.beginsElement prev = true) :
    k.endsLine = false := by
  cases k <;> first | rfl | cases h

theorem trailingSpace_of_start (ts : List Token) {u : Token} (hu : u.kind = .startAttributes)
    (rest : List Token) : trailingSpace ts (u :: rest) = [] := by
  unfold trailingSpace
  cases ts.getLast? with
  | none => rfl
  | some t => exact spaceText_of_start t hu rest

theorem trailingSpace_append (ts : List Token) (t : Token) (us rest : List Token) :
    trailingSpace (ts ++ t :: us) rest = trailingSpace (t :: us) rest := by
  unfold trailingSpace
  rw [List.getLast?_append_cons]

theorem map_attribute? {ts : List Token} (h : ∀ t ∈ ts, t.attribute?.isSome = true) :
    ts.map Token.attribute? = (ts.filterMap Token.attribute?).map some := by
  induction ts with
  | nil => rfl
  | cons t ts ih =>
    obtain ⟨ht, hts⟩ := List.forall_mem_cons.1 h
    obtain ⟨a, ha⟩ := Option.isSome_iff_exists.1 ht
    rw [List.map_cons, ih hts, List.filterMap_cons, ha]
    rfl

theorem flatMap_attribute? {g : Token → List Text} {g' : Attribute → List Text}
    (hg : ∀ t : Token, t.kind.isShorthand = false → g t = t.attribute?.toList.flatMap g')
    {ts : List Token} (h : ∀ t ∈ ts, t.kind.isShorthand = false) :
    ts.flatMap g = (ts.filterMap Token.attribute?).flatMap g' := by
  induction ts with
  | nil => rfl
  | cons t ts ih =>
    obtain ⟨ht, hts⟩ := List.forall_mem_cons.1 h
    rw [List.flatMap_cons, hg t ht, ih hts, List.filterMap_cons]
    cases t.attribute? <;> simp

theorem flatMap_tokens {g : Token → List Text} {g' : Attribute → List Text}
    (hg : ∀ t : Token, t.kind.isShorthand = false → g t = t.attribute?.toList.flatMap g')
    {ls : List Token} (h : ∀ t ∈ ls, t.kind.isShorthand = false) (head : Token)
    (front back : List Token) :
    (head :: (front ++ (ls ++ back))).flatMap g =
      (head :: front).flatMap g ++ ((ls.filterMap Token.attribute?).flatMap g' ++ back.flatMap g) := by
  rw [← List.cons_append, List.flatMap_append, List.flatMap_append, flatMap_attribute? hg h]

theorem ids_of_not_shorthand (style : Style) (t : Token) (h : t.kind.isShorthand = false) :
    t.ids style = t.attribute?.toList.flatMap (Attribute.ids style) := by
  unfold Token.ids Token.attribute?
  cases hk : t.kind with
  | idName name => rw [hk] at h; cases h
  | attr a => simp
  | _ => rfl

theorem classNames_of_not_shorthand (style : Style) (t : Token) (h : t.kind.isShorthand = false) :
    t.classNames style = t.attribute?.toList.flatMap (Attribute.classNames style) := by
  unfold Token.classNames Token.attribute?
  cases hk : t.kind with
  | className name => rw [hk] at h; cases h
  | attr a => simp
  | _ => rfl

theorem ListTokens.not_shorthand {ls : List Token} (h : ListTokens ls) :
    ∀ t ∈ ls, t.kind.isShorthand = false := by
  intro t ht
  cases h with
  | none => cases ht
  | @list start stop ts hs hts he =>
    rcases List.mem_cons.1 ht with rfl | ht
    · rw [hs]; rfl
    rcases List.mem_append.1 ht with ht | ht
    · obtain ⟨a, ha⟩ := Option.isSome_iff_exists.1 (hts t ht)
      rw [kind_of_attribute? ha]; rfl
    · rw [List.mem_singleton.1 ht, he]; rfl

section
variable {ε : Type} (style : Style) (page : Page) (f : Formatter ε)

theorem reads_front (hc : style.classes ≠ .inList) (before : Option Token) {head : Token}
    (hb : head.kind.beginsElement (before.map Token.kind) = true) {front : List Token}
    (hfront : ∀ t ∈ front, t.kind.isShorthand = true) (rest : List Token) {o : Outline}
    (hp : o.pending = []) (s : Sheet ε) :
    let es := siteEdits style (sitesUpTo before (head :: front) rest) o
    (Sheet.applyAll page f es.1 s).Reads
        (s.draft.text ++ leadText page (before.map Token.kind) o.depth ++
          headText style head (front ++ rest) ++ idText ((head :: front).flatMap (Token.ids style)))
        (classText ((head :: front).flatMap (Token.classNames style)))
        (trailingSpace (head :: front) rest) s.broken s.session ∧
      es.2 = o := by
  intro es
  have hend : ((some head).map Token.kind).all Kind.endsLine = false := endsLine_of_begins hb
  obtain ⟨h1, ho⟩ := reads_head style page f hc before hb (front ++ rest) hp s
  obtain ⟨h2, ho2⟩ := reads_shorthands style page f hc rest hp front (some head) hfront hend h1
  simp only [es, sitesUpTo, siteEdits, Sheet.applyAll_append]
  rw [ho, List.flatMap_cons, List.flatMap_cons, idText_append, classText_append,
    ← trailingSpace_cons head hfront, ← List.append_assoc]
  exact ⟨h2, ho2⟩

theorem reads_listed (hc : style.classes ≠ .inList) (before : Option Token) {head : Token}
    (hb : head.kind.beginsElement (before.map Token.kind) = true) {front : List Token}
    (hfront : ∀ t ∈ front, t.kind.isShorthand = true) {start stop : Token} {ts : List Token}
    (hs : start.kind = .startAttributes) (hts : ∀ t ∈ ts, t.attribute?.isSome = true)
    (he : stop.kind = .endAttributes) {back : List Token}
    (hback : ∀ t ∈ back, t.kind.isShorthand = true) (post : List Token) {o : Outline}
    (hl : o.listOpen = false) (hp : o.pending = []) (s : Sheet ε) :
    let as := ts.filterMap Token.attribute?
    let rest := start :: (ts ++ [stop]) ++ back
    let x := s.draft.text ++ leadText page (before.map Token.kind) o.depth ++
      headText style head (front ++ rest ++ post) ++ idText ((head :: front).flatMap (Token.ids style))
    let y := classText ((head :: front).flatMap (Token.classNames style))
    let list := listContent style page
      (page.breaks (columnOf page.tab (x ++ y ++ ['('])) (.of style.classes as none)) o.depth
      (as.filterMap (Attribute.item? style))
    (Sheet.applyAll page f
        (siteEdits style (sitesUpTo before (head :: (front ++ rest)) post) o).1 s).draft.text =
      x ++ idText (as.flatMap (Attribute.ids style)) ++
          idText (back.flatMap (Token.ids style)) ++
        (y ++ classText (as.flatMap (Attribute.classNames style)) ++
          classText (back.flatMap (Token.classNames style))) ++
        ((list.resolve f s.session).1 ++ trailingSpace (stop :: back) post) := by
  intro as rest x y list
  have hend : ((some stop).map Token.kind).all Kind.endsLine = false := by simp [he, Kind.endsLine]
  have hlast : (start :: (ts ++ [stop])).getLast?.or ((head :: front).getLast?.or before) =
      some stop := by
    rw [← List.cons_append, List.getLast?_append]; simp
  have hspace : trailingSpace (head :: front) (rest ++ post) = [] := trailingSpace_of_start _ hs _
  obtain ⟨h1, ho1⟩ := reads_front style page f hc before hb hfront (rest ++ post) hp s
  rw [hspace, ← List.append_assoc front] at h1
  obtain ⟨h2, ho2⟩ := reads_plainList style page f hs he (map_attribute? hts)
    ((head :: front).getLast?.or before) (back ++ post) hl hc hp h1
  obtain ⟨h3, -⟩ := reads_shorthands style page f hc post (o := { o with written := 0 }) hp back
    (some stop) hback hend h2
  rw [List.append_assoc _ (spaceText stop _), trailingSpace_cons stop hback] at h3
  rw [← List.cons_append, sitesUpTo_append, siteEdits_append, sitesUpTo_append, siteEdits_append,
    Sheet.applyAll_append, Sheet.applyAll_append, ho1, ho2, hlast]
  exact h3.text

theorem text_siteEdits_run (hc : style.classes ≠ .inList) (before : Option Token)
    (run : ElementRun (before.map Token.kind)) (post : List Token) {o : Outline}
    (hl : o.listOpen = false) (hp : o.pending = []) (s : Sheet ε) :
    let lead := leadText page (before.map Token.kind) o.depth
    let list := run.listContent style page (s.draft.text ++ lead) o.depth post
    (Sheet.applyAll page f (siteEdits style (sitesUpTo before run.tokens post) o).1 s).draft.text =
      s.draft.text ++ (lead ++ run.headText style post ++ idText (run.ids style) ++
        classText (run.classNames style) ++ (list.resolve f s.session).1 ++
        trailingSpace run.tokens post) := by
  intro lead list
  obtain ⟨head, front, ls, back, hb, hfront, hls, hback⟩ := run
  have hls' := hls.not_shorthand
  cases hls with
  | none =>
    have hall : ∀ t ∈ front ++ back, t.kind.isShorthand = true :=
      List.forall_mem_append.2 ⟨hfront, hback⟩
    obtain ⟨h1, -⟩ := reads_front style page f hc before hb hall post hp s
    simp only [ElementRun.tokens, ElementRun.ids, ElementRun.classNames, ElementRun.headText,
      List.nil_append]
    rw [h1.text]
    simp [list, lead, ElementRun.listContent, ElementRun.attributes, listContent, Content.resolve]
  | @list start stop ts hs hts he =>
    have hattr : (start :: (ts ++ [stop])).filterMap Token.attribute? =
        ts.filterMap Token.attribute? := by
      have h1 : start.attribute? = none := by unfold Token.attribute?; rw [hs]
      simp [h1, attribute?_of_end he]
    -- the space is the affair of the last token, which the list does not change
    have hspace : trailingSpace (head :: (front ++ (start :: (ts ++ [stop]) ++ back))) post =
        trailingSpace (stop :: back) post := by
      rw [← trailingSpace_append (head :: (front ++ start :: ts)) stop back post]
      simp
    have hids := flatMap_tokens (ids_of_not_shorthand style) hls' head front back
    have hclasses := flatMap_tokens (classNames_of_not_shorthand style) hls' head front back
    rw [hattr] at hids hclasses
    simp only [ElementRun.tokens]
    -- both sides become the same texts in a row, the list in front of the space
    rw [reads_listed style page f hc before hb hfront hs hts he hback post hl hp s, hspace]
    simp only [list, lead, ElementRun.listContent, ElementRun.attributes, ElementRun.opened, hattr,
      ElementRun.ids, ElementRun.classNames, ElementRun.headText, ElementRun.tokens, hids, hclasses,
      idText_append, classText_append, List.append_assoc]

def sampleRun : ElementRun (some .indent) where
  head := ⟨.className "x", {}⟩
  front := [⟨.idName "i", {}⟩]
  list := ⟨.startAttributes, {}⟩ :: ([⟨.attr ⟨"class", .source "'b c'", true⟩, {}⟩,
    ⟨.attr ⟨"href", .source "'/'", true⟩, {}⟩, ⟨.attr ⟨"id", .source "'k'", true⟩, {}⟩] ++
    [⟨.endAttributes, {}⟩])
  back := [⟨.className "z", {}⟩]
  begins := rfl
  front_shorthand := by decide
  list_tokens := .list rfl (by decide) rfl
  back_shorthand := by decide

end

end PugPretty
