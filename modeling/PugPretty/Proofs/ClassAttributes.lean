import PugPretty.Proofs.LeadingShorthand
import PugPretty.Proofs.RenderedLists

/-!
# Class attributes

Where classes move to a `class` attribute, the classes of a run of shorthand are written together and
in order. The first attribute of the list behind the run that takes classes in gets them in front of
its own, and else they are the first item of the list; without a list, or in front of an empty one,
they are a list of their own. Nothing waits any longer than that (`classes_written_once`).
-/

namespace PugPretty

open Text

/-! ## Quoting classes -/

theorem Quotes.space_ne (q : Quotes) : ' ' ≠ q.opposite.char ∧ ' ' ≠ q.char := by
  cases q <;> decide

theorem requoted_space (q : Quotes) (t u : Text) :
    requoted q (t ++ ' ' :: u) = requoted q t ++ ' ' :: requoted q u := by
  obtain ⟨ho, hq⟩ := q.space_ne
  fun_induction requoted q t with
  | case1 => simp [requoted, hq]
  | case2 r ih => simp [requoted, ih]
  | case3 c r hc ih => simp [requoted, hc, ih]
  | case4 r hne ih =>
    have hs : q.char ≠ '\\' := by cases q <;> decide
    simp [requoted, hs, ih]
  | case5 c r hne hc ih =>
    by_cases hs : c = '\\'
    · -- a backslash at the end takes the space along, which stays as it is
      obtain rfl : r = [] := by
        cases r with
        | nil => rfl
        | cons d r => exact (hne d r hs rfl).elim
      simp [requoted, hs, ho]
    · simp [requoted, hs, hc, ih]

theorem requoted_unwords (q : Quotes) (ws : List Text) :
    requoted q (unwords ws) = unwords (ws.map (requoted q)) := by
  induction ws with
  | nil => rfl
  | cons w ws ih =>
    cases ws with
    | nil => simp [unwords]
    | cons v ws =>
      simp only [unwords, List.map_cons, List.intercalate_cons_cons] at ih ⊢
      rw [List.append_assoc, List.singleton_append, requoted_space, ih]
      simp

theorem classValue_eq (style : Style) (classes : List Text) :
    classValue style classes = style.quotes.char ::
      (unwords (classes.map (requoted style.quotes)) ++ [style.quotes.char]) := by
  rw [classValue, quote, requoted_unwords]

/-! ## The attribute that takes the classes -/

section
variable {style : Style}

theorem leaves_of_not_merge {a : Attribute}
    (hm : ∀ classes, a.role style.classes ≠ .merge classes) (waiting : List Text) :
    a.leaves style waiting = waiting ∧ a.itemWith? style waiting = a.itemWith? style [] := by
  unfold Attribute.leaves Attribute.itemWith?
  cases hr : a.role style.classes with
  | merge classes => exact absurd hr (hm classes)
  | _ => exact ⟨rfl, rfl⟩

theorem leaves_of_not_takes {a : Attribute} (ha : a.takesClasses = false) (waiting : List Text) :
    a.leaves style waiting = waiting ∧ a.itemWith? style waiting = a.itemWith? style [] := by
  refine leaves_of_not_merge (fun classes hr => ?_) waiting
  have hkeep : a.role style.classes ≠ .keep := by rw [hr]; simp
  obtain ⟨body, hb, hof⟩ := body?_of_role hkeep
  obtain ⟨hn, -, -⟩ := Role.of_eq_merge (hof.symm.trans hr)
  simp [Attribute.takesClasses, hn, hb] at ha

theorem itemsWith_append_of_not_takes (waiting : List Text) (as : List Attribute) :
    ∀ front : List Attribute, (∀ u ∈ front, u.takesClasses = false) →
      itemsWith style waiting (front ++ as) =
        front.filterMap (Attribute.itemWith? style []) ++ itemsWith style waiting as
  | [], _ => rfl
  | u :: front, h => by
    obtain ⟨hu, hfront⟩ := List.forall_mem_cons.1 h
    have hpass : u.leaves style waiting = waiting ∧ u.itemWith? style waiting = u.itemWith? style [] :=
      leaves_of_not_takes hu waiting
    obtain ⟨hleaves, hitem⟩ := hpass
    rw [List.cons_append, itemsWith, hleaves, hitem,
      itemsWith_append_of_not_takes waiting as front hfront, List.filterMap_cons]
    cases u.itemWith? style [] <;> simp

/-- The items of a list that has these classes in front of it. -/
structure TakesIn (style : Style) (classes : List Text) (as : List Attribute) (items : List Item) :
    Prop where
  merged : ∀ front a back body, as = front ++ a :: back → (∀ u ∈ front, u.takesClasses = false) →
    a.name = "class" → a.value.body? = some body →
    items = front.filterMap (Attribute.itemWith? style []) ++
      a.classItem style (classes ++ words body) :: back.filterMap (Attribute.itemWith? style [])
  made : (∀ a ∈ as, a.takesClasses = false) →
    items = (if classes.isEmpty then [] else [classItem (classValue style classes)]) ++
      as.filterMap (Attribute.itemWith? style [])

theorem takesIn_listItems (hc : style.classes = .inList) (classes : List Text) (as : List Attribute) :
    TakesIn style classes as (listItems style classes as) := by
  refine ⟨?_, fun h => ?_⟩
  · rintro front a back body rfl hfront hn hb
    have ha : a.takesClasses = true := by simp [Attribute.takesClasses, hn, hb]
    have hr : a.role style.classes = .merge (words body) := a.role_inList style hc hn hb
    have hextra : extraClass? style classes (front ++ a :: back) = none := by
      unfold extraClass?
      rw [List.any_append, List.any_cons, ha]
      simp
    have hitem : a.itemWith? style classes = some (a.classItem style (classes ++ words body)) := by
      unfold Attribute.itemWith?
      rw [hr]
      rfl
    have hleaves : a.leaves style classes = [] := by
      unfold Attribute.leaves
      rw [hr]
    rw [listItems, waitingInside, hextra]
    simp only [Option.toList_none, List.map_nil, List.nil_append, Option.isSome_none,
      Bool.false_eq_true, if_false]
    rw [itemsWith_append_of_not_takes _ _ front hfront, itemsWith, hitem, hleaves, itemsWith_nil]
    rfl
  · have hany : as.any Attribute.takesClasses = false := by simpa using h
    unfold listItems waitingInside extraClass?
    cases classes with
    | nil => simp [itemsWith_nil]
    | cons w ws => simp [hany, itemsWith_nil]

end

/-! ## Runs and lists in a stream -/

theorem leavesOpen_of_last {t : Token} : ∀ {k : Bool} {done : List Token},
    enclosed k (done ++ [t]) = true → t.kind.leavesOpen = false
  | k, [], h => by
    obtain ⟨-, hend⟩ := enclosed_cons.1 h
    simpa [enclosed] using hend
  | k, u :: done, h => leavesOpen_of_last (enclosed_cons.1 h).2

theorem holdsClasses_last {done : List Token} (he : enclosed false done = true)
    (hs : (done.getLast?.map Token.kind).all (!·.isShorthand) = true) :
    (done.getLast?.map Token.kind).all (!·.holdsClasses) = true := by
  rcases List.eq_nil_or_concat done with rfl | ⟨done, t, rfl⟩
  · rfl
  rw [List.concat_eq_append] at he hs ⊢
  have hopen := leavesOpen_of_last he
  have ht : t.kind.isShorthand = false := by simpa using hs
  have hh : t.kind.holdsClasses = false := by
    cases hk : t.kind <;> simp_all [Kind.leavesOpen, Kind.isShorthand, Kind.holdsClasses]
  simp [hh]

theorem insideList_of_shorthand {k : Kind} (h : k.isShorthand = true) : k.insideList = false := by
  cases k <;> first | rfl | cases h

theorem exists_list_of_enclosed : ∀ {ts : List Token}, enclosed true ts = true →
    ∃ as stop rest, ts = as ++ [stop] ++ rest ∧ (∀ t ∈ as, t.attribute?.isSome = true) ∧
      stop.kind = .endAttributes
  | [], h => by cases h
  | t :: ts, h => by
    obtain ⟨hi, hts⟩ := enclosed_cons.1 h
    cases hk : t.kind with
    | endAttributes => exact ⟨[], t, ts, rfl, by simp, hk⟩
    | attr a =>
      rw [hk] at hts
      obtain ⟨as, stop, rest, rfl, has, he⟩ := exists_list_of_enclosed hts
      refine ⟨t :: as, stop, rest, rfl, List.forall_mem_cons.2 ⟨?_, has⟩, he⟩
      simp [Token.attribute?, hk]
    | _ => rw [hk] at hi; cases hi

theorem nesting_append_shorthand (done : List Token) : ∀ run : List Token,
    (∀ t ∈ run, t.kind.isShorthand = true) → nesting (done ++ run) = nesting done := by
  intro run
  induction run using List.reverseRecOn with
  | nil => intro _; rw [List.append_nil]
  | append_singleton run t ih =>
    intro h
    obtain ⟨hrun, ht⟩ := List.forall_mem_append.1 h
    rw [← List.append_assoc, nesting_snoc, ih hrun]
    cases hk : t.kind with
    | className | idName => rfl
    | _ => simp [hk, Kind.isShorthand] at ht

theorem exists_inFront {ε : Type} (style : Style) {l : Layout} {page : Page}
    (hl : page.Follows l) (f : Formatter ε) {done : List Token}
    (he : enclosed false done = true) (hn : ∀ t ∈ done, t.kind ≠ .eos) (rest : List Token)
    (head : Kind) : ∃ x y z, InFront style page (sheetAfter style page f done rest)
      (done.getLast?.map Token.kind) (nesting done) head x y z := by
  cases ho : (done.getLast?.map Token.kind).all Kind.endsLine with
  | true => exact ⟨_, _, _, inFront_of_endsLine style page ho _ head _⟩
  | false =>
    obtain ⟨x, y, z, hp, -⟩ := (draws_sheetAfter style f rest (isBlank_indentChar hl) he hn).1.parts
    exact ⟨x, y, z, inFront_of_parts style page ho _ head hp⟩

/-! ## Where the classes of a run are written -/

/-- What a run of shorthand has written that joins the parts `x`, `y` and `z`, and the list behind
it, if there is one. -/
structure ClassRun {ε : Type} (style : Style) (l : Layout) (page : Page) (f : Formatter ε)
    (done run post : List Token) (x y z : Text) : Prop where
  unlisted : goesOn post = false →
    (sheetAfter style page f (done ++ run) post).draft.text =
      x ++ idText (run.flatMap (Token.ids style)) ++ y ++
        (z ++ waitingText style (run.flatMap (Token.classNames style)) ++ trailingSpace run post)
  listed : ∀ start as stop rest, post = start :: (as ++ [stop] ++ rest) →
    start.kind = .startAttributes → (∀ t ∈ as, t.attribute?.isSome = true) →
    stop.kind = .endAttributes →
    let attrs := as.filterMap Token.attribute?
    let broken := (sheetAfter style page f (done ++ run ++ [start]) (as ++ [stop] ++ rest)).broken
    ∃ items, TakesIn style (run.flatMap (Token.classNames style)) attrs items ∧
      (attrs = [] → broken = false) ∧
      (sheetAfter style page f (done ++ run ++ start :: (as ++ [stop])) rest).draft.text =
        x ++ idText (run.flatMap (Token.ids style) ++ attrs.flatMap (Attribute.ids style)) ++ (y ++ z) ++
          (((writtenList style l broken (nesting done) items).resolve f
            (sheetAfter style page f done (run ++ post)).session).1 ++ spaceText stop rest)
  exists_list : goesOn post = true → ∃ start as stop rest, post = start :: (as ++ [stop] ++ rest) ∧
    start.kind = .startAttributes ∧ (∀ t ∈ as, t.attribute?.isSome = true) ∧
    stop.kind = .endAttributes

section
variable {ε : Type} {style : Style} (hc : style.classes = .inList) {l : Layout} {page : Page}
  (hl : page.Follows l) (f : Formatter ε) {done more post : List Token} {head : Token}

theorem broken_of_emptyList {start stop : Token} {as : List Token}
    (hs : start.kind = .startAttributes) (has : ∀ t ∈ as, t.attribute?.isSome = true)
    (hn : as.filterMap Token.attribute? = []) (he : stop.kind = .endAttributes)
    (pre rest : List Token) :
    (sheetAfter style page f (pre ++ [start]) (as ++ [stop] ++ rest)).broken = false := by
  have hnil : as = [] := by simpa [hn] using map_attribute? has
  have hrun : attributeRun ([] ++ [stop] ++ rest) = [] :=
    attributeRun_append (attribute?_of_end he) rest [] [] rfl
  subst hnil
  rw [sheetAfter_snoc, tokenEdits_start style hs, hrun]
  exact broken_openList_nil style page f _ _

theorem classNames_inList (hc : style.classes = .inList) (a : Attribute) :
    a.classNames style = [] := by
  unfold Attribute.classNames
  cases hr : a.role style.classes with
  | split simple others =>
    have hkeep : a.role style.classes ≠ .keep := by rw [hr]; simp
    obtain ⟨body, -, hof⟩ := body?_of_role hkeep
    obtain ⟨-, hs, -⟩ := Role.of_eq_split (hof.symm.trans hr)
    rw [hc] at hs
    cases hs
  | _ => rfl

theorem isStart_of_goesOn (hgo : goesOn post = true)
    (hpost : post.head?.all (!·.kind.isShorthand) = true) :
    ∃ start rest, post = start :: rest ∧ start.kind = .startAttributes := by
  cases post with
  | nil => cases hgo
  | cons t rest =>
    refine ⟨t, rest, rfl, ?_⟩
    have hj : t.kind.joinsHead = true := hgo
    have hs : t.kind.isShorthand = false := by simpa using hpost
    cases hk : t.kind <;> simp_all [Kind.joinsHead, Kind.isShorthand]

include hc hl

theorem classRun {x y z : Text} (h : WellFormed (done ++ (head :: more ++ post)))
    (hd : (done.getLast?.map Token.kind).all (!·.isShorthand) = true)
    (hk : head.kind.isShorthand = true) (hm : ∀ t ∈ more, t.kind.isShorthand = true)
    (hpost : post.head?.all (!·.kind.isShorthand) = true)
    (hx : InFront style page (sheetAfter style page f done (head :: more ++ post))
      (done.getLast?.map Token.kind) (nesting done) head.kind x y z) :
    ClassRun style l page f done (head :: more) post x y z := by
  have hbefore : enclosed false done = true :=
    enclosed_before (insideList_of_shorthand hk) _ _ _ h.enclosed
  obtain ⟨hreads, hpending⟩ :=
    reads_run style page f hk hm done post (holdsClasses_last hbefore hd) hx
  simp only [placedText, listedText, hc, if_true, true_and, List.append_nil] at hreads hpending
  -- a list behind the run is not opened in another one
  have hlisted : ∀ start rest, post = start :: rest → start.kind = .startAttributes →
      enclosed false (done ++ head :: more) = true ∧ enclosed true rest = true := by
    rintro start rest rfl hs
    have henc := h.enclosed
    rw [← List.append_assoc] at henc
    have hpre := enclosed_before (by rw [hs]; rfl) rest false (done ++ head :: more) henc
    rw [enclosed_append hpre, enclosed_cons, hs] at henc
    exact ⟨hpre, henc.2⟩
  refine ⟨fun hgo => ?_, ?_, fun hgo => ?_⟩
  · rw [hgo, if_pos rfl] at hreads
    exact hreads.text
  · rintro start as stop rest rfl hs has he attrs broken
    have hgo : goesOn (start :: (as ++ [stop] ++ rest)) = true := by
      show start.kind.joinsHead = true
      rw [hs]; rfl
    rw [hgo, trailingSpace_of_start _ hs, if_neg (by simp), List.append_nil, List.append_nil] at hreads
    rw [hgo, if_pos rfl] at hpending
    obtain ⟨htext, -⟩ := text_listTokens style hl f hs has he (hlisted start _ rfl hs).1 hreads.parts
    have hassoc : start :: (as ++ [stop]) ++ rest = start :: (as ++ [stop] ++ rest) := rfl
    have hclasses : attrs.flatMap (Attribute.classNames style) = [] := by
      simp [classNames_inList hc]
    refine ⟨_, takesIn_listItems hc _ attrs, fun hn => broken_of_emptyList f hs has hn he _ rest, ?_⟩
    rw [htext, ← nesting_append_shorthand done (head :: more) (List.forall_mem_cons.2 ⟨hk, hm⟩),
      hassoc, hpending, hreads.session, hclasses, show classText [] = [] from rfl, List.append_nil,
      idText_append, ← List.append_assoc x]
  · obtain ⟨start, rest, rfl, hs⟩ := isStart_of_goesOn hgo hpost
    obtain ⟨as, stop, rest, rfl, has, he⟩ := exists_list_of_enclosed (hlisted start _ rfl hs).2
    exact ⟨start, as, stop, rest, rfl, hs, has, he⟩

end

/-- **Every class is written once.** -/
theorem classes_written_once {ε : Type} {style : Style} (hc : style.classes = .inList) {l : Layout}
    {page : Page} (hl : page.Follows l) (f : Formatter ε) (ord : AttributeOrder)
    {ts : List Token} (h : WellFormed ts) :
    (∀ done t rest, ord.arrange ts = done ++ t :: rest → t.kind.holdsClasses = false →
      (outlineAfter style (done ++ [t]) rest).pending = []) ∧
    (outlineAfter style (ord.arrange ts) []).pending = [] ∧
    (∀ classes, classValue style classes = style.quotes.char ::
      (unwords (classes.map (requoted style.quotes)) ++ [style.quotes.char])) ∧
    ∀ done head more post, ord.arrange ts = done ++ (head :: more ++ post) →
      (done.getLast?.map Token.kind).all (!·.isShorthand) = true →
      (∀ t ∈ head :: more, t.kind.isShorthand = true) →
      post.head?.all (!·.kind.isShorthand) = true →
      let infront := InFront style page (sheetAfter style page f done (head :: more ++ post))
        (done.getLast?.map Token.kind) (nesting done) head.kind
      (∃ x y z, infront x y z) ∧
        ∀ x y z, infront x y z → ClassRun style l page f done (head :: more) post x y z := by
  refine ⟨fun done t rest _ ht => ?_, ?_, classValue_eq style, ?_⟩
  · exact pending_outlineAfter_of_last style (by simp [ht]) rest
  · by_contra hp
    rcases (due_outlineAfter style hc (ord.arrange ts) []).awaited hp with hgo | hrun
    · cases hgo
    · cases hrun
  intro done head more post hv hd hrun hpost infront
  have hw := hv ▸ h.arrange ord
  obtain ⟨hk, hm⟩ := List.forall_mem_cons.1 hrun
  have hbefore := enclosed_before (insideList_of_shorthand hk) _ _ _ hw.enclosed
  exact ⟨exists_inFront style hl f hbefore hw.ne_eos _ _,
    fun x y z hx => classRun hc hl f hw hd hk hm hpost hx⟩

def classSample : List Token :=
  [⟨.tag "ul", {}⟩, ⟨.indent, {}⟩, ⟨.className "a", {}⟩, ⟨.idName "i", {}⟩, ⟨.className "b", {}⟩,
    ⟨.startAttributes, {}⟩, ⟨.attr ⟨"href", .source "'/'", true⟩, {}⟩,
    ⟨.attr ⟨"class", .source "'c d'", true⟩, {}⟩, ⟨.endAttributes, {}⟩, ⟨.className "e", {}⟩,
    ⟨.outdent, {}⟩, ⟨.eos, {}⟩]

theorem classes_written_once_classSample :
    let style : Style := { classes := .inList }
    let page : Page := ⟨' ', 2, 2, 80, -1, fun _ => false⟩
    let f : Formatter Empty := fun _ r => .ok r.code
    let text := fun n => (sheetAfter style page f (classSample.take n) (classSample.drop n)).draft.text
    WellFormed classSample ∧
      (outlineAfter style (classSample.take 9) (classSample.drop 9)).pending = [] ∧
      text 9 = "ul\n  div#i(href=\"/\" class=\"a b c d\")".toList ∧
      text 10 = "ul\n  div#i(href=\"/\" class=\"a b c d\")(class=\"e\")".toList := by
  intro style page f text
  have hw : WellFormed classSample := by decide
  have hl : page.Follows {} := ⟨_, rfl⟩
  have hc : style.classes = .inList := rfl
  obtain ⟨hnone, -, -, hruns⟩ := classes_written_once hc hl f {} hw
  -- the run in front of the list begins a line, the class behind it does not
  obtain ⟨-, hfirst⟩ := hruns (classSample.take 2) ⟨.className "a", {}⟩
    [⟨.idName "i", {}⟩, ⟨.className "b", {}⟩] (classSample.drop 5) rfl rfl (by decide) rfl
  obtain ⟨-, hlast⟩ := hruns (classSample.take 9) ⟨.className "e", {}⟩ [] (classSample.drop 10) rfl
    rfl (by decide) rfl
  have hlist := (hfirst "ul\n  div".toList [] [] ⟨by decide, rfl, rfl⟩).listed ⟨.startAttributes, {}⟩
    ((classSample.drop 6).take 2) ⟨.endAttributes, {}⟩ (classSample.drop 9) rfl rfl (by decide) rfl
  obtain ⟨items, htakes, -, htext⟩ := hlist
  have hitems := htakes.merged [⟨"href", .source "'/'", true⟩] ⟨"class", .source "'c d'", true⟩ []
    "c d".toList rfl (by decide) rfl rfl
  have hbehind := (hlast "ul\n  div#i".toList [] "(href=\"/\" class=\"a b c d\")".toList
    ⟨by decide, by decide, by decide⟩).unlisted rfl
  refine ⟨hw, hnone (classSample.take 8) ⟨.endAttributes, {}⟩ (classSample.drop 9) rfl rfl, ?_,
    hbehind.trans (by decide)⟩
  rw [hitems] at htext
  exact htext.trans (by decide)

end PugPretty
