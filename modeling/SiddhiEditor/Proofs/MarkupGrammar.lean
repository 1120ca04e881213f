import SiddhiEditor.Proofs.Construction
import SiddhiEditor.Proofs.LexicalGrammar
import SiddhiEditor.Tree.Markup

/-!
# The grammar of the bracket notation

A notation is read here a second time, as a list of *marks*: an opening brace
with its name, a closing brace, a cursor, or one character of text.  `marks`
takes the longest name behind an opening brace and skips one space behind the
name.  On marks the notation is described without carrying anything out.

* `Legal` says which notations describe a tree.  The *depth* of a place is the
  number of openings before it less the number of closings.  Text and closing
  braces need a depth of at least 1, and the last depth is 0.
* `Describes` says what the tree is.  Its text, the tokens of its leaves, the
  rules of its interior nodes and the cursor are read off the marks.

The items that are carried out are the marks with the characters of a chunk put
together (`reads_split`).  Two things are then followed item by item.  The number of
open nodes is the depth, and an item is refused if and only if one of its marks has
no place (`walk_items`).  The draft gains the lexemes and the names of the items, and
the cursor goes to the last cursor mark (`carriedOut_items`).
-/

namespace SiddhiEditor

namespace Markup

/-! ## Marks -/

/-- What is read of a notation at a time. -/
inductive Mark where
  /-- An opening brace with a name. -/
  | opening (name : String)
  /-- A closing brace. -/
  | closing
  /-- A dollar sign. -/
  | cursor
  /-- A character of the document. -/
  | char (c : Char)
  deriving DecidableEq, Repr

/-- A character that may stand in a name. -/
def inName (c : Char) : Bool := c != ' ' && c != '\x7d'

/-- The text behind a space, if there is one at the start. -/
def skipSpace (cs : List Char) : List Char := if cs.head? = some ' ' then cs.tail else cs

theorem length_skipSpace_le (cs : List Char) : (skipSpace cs).length ≤ cs.length := by
  unfold skipSpace
  split
  · rw [List.length_tail]
    exact Nat.sub_le _ _
  · exact Nat.le_refl _

/-- The marks of a notation. -/
def marks : List Char → List Mark
  | [] => []
  | c :: cs =>
    if c = '\x7b' then
      .opening (String.ofList (cs.takeWhile inName)) :: marks (skipSpace (cs.dropWhile inName))
    else if c = '\x7d' then .closing :: marks cs
    else if c = '$' then .cursor :: marks cs
    else .char c :: marks cs
  termination_by cs => cs.length
  decreasing_by
    · have hskip := length_skipSpace_le (cs.dropWhile inName)
      have hdrop := (List.dropWhile_sublist (l := cs) inName).length_le
      rw [List.length_cons]
      omega
    all_goals exact Nat.lt_succ_self _

namespace Mark

/-- The character of a mark that is text. -/
def char? : Mark → Option Char
  | char c => some c
  | _ => none

/-- The name of a mark that opens a node. -/
def name? : Mark → Option String
  | opening name => some name
  | _ => none

/-- By how much a mark raises the depth. -/
def rise : Mark → Int
  | opening _ => 1
  | closing => -1
  | _ => 0

/-- A mark that needs an open node. -/
def needsNode : Mark → Bool
  | closing => true
  | char _ => true
  | _ => false

end Mark

/-- The text in marks. -/
def text (ms : List Mark) : String := String.ofList (ms.filterMap Mark.char?)

/-- The texts between the marks that are no text, in order. -/
def chunks (ms : List Mark) : List String := (ms.splitOnP fun m => m.char?.isNone).map text

/-- The depth behind marks. -/
def depth : List Mark → Int
  | [] => 0
  | m :: ms => m.rise + depth ms

/-- What a token is without its place. -/
abbrev Lexeme := Kind × String

/-- The lexemes of a text. -/
def lexemes (s : String) : List Lexeme := (Token.scan s).map fun tok => (tok.kind, tok.text)

/-- The marks describe a tree. -/
structure Legal (ms : List Mark) : Prop where
  /-- Every name is that of a rule. -/
  named : ∀ name, .opening name ∈ ms → ∃ r : Rule, r.name = name
  /-- Every closing brace and every character stands at a depth of at least 1. -/
  inside : ∀ before m, before ++ [m] <+: ms → m.needsNode = true → 1 ≤ depth before
  /-- All that is opened is closed. -/
  closed : depth ms = 0
  /-- There is a node. -/
  node : ∃ name, .opening name ∈ ms

end Markup

/-- The rules of the interior nodes, in order. -/
def Tree.rules (t : Tree) : List Rule := t.nodes.toList.filterMap (·.label.rule?)

namespace Markup

/-- The tree and the cursor are those that the marks describe. -/
structure Describes (ms : List Mark) (t : Tree) (offset : Nat) : Prop where
  /-- The document is the text. -/
  source : t.source = text ms
  /-- The leaves have the lexemes of the chunks, each chunk scanned on its own. -/
  leaves : (t.tokens.map fun tok => (tok.kind, tok.text)) = (chunks ms).flatMap lexemes
  /-- The leaves lie end to end. -/
  tiled : Tiles 0 t.tokens (text ms).utf8ByteSize
  /-- The interior nodes have the names, in order. -/
  names : t.rules.map Rule.name = ms.filterMap Mark.name?
  /-- The cursor is behind the text before the last cursor mark, or behind the whole
  text if there is no such mark. -/
  cursor : (∃ before after, ms = before ++ .cursor :: after ∧ .cursor ∉ after ∧
      offset = (text before).utf8ByteSize) ∨
    (.cursor ∉ ms ∧ offset = (text ms).utf8ByteSize)

section Marks

variable (m : Mark) (ms more : List Mark)

@[simp] theorem text_nil : text [] = "" := rfl

theorem text_append : text (ms ++ more) = text ms ++ text more := by
  rw [text, text, text, List.filterMap_append, String.ofList_append]

theorem text_map_char (cs : List Char) : text (cs.map .char) = String.ofList cs := by
  rw [text, List.filterMap_map]
  exact congrArg String.ofList List.filterMap_some

@[simp] theorem depth_nil : depth [] = 0 := rfl

@[simp] theorem depth_cons : depth (m :: ms) = m.rise + depth ms := rfl

/-- A mark that is no character ends a run of text. -/
theorem chunks_of_char?_eq_none (h : m.char? = none) : chunks (m :: ms) = "" :: chunks ms := by
  simp [chunks, List.splitOnP_cons_eq_if_modifyHead, h]

/-- A character goes on with the run of text behind it. -/
theorem chunks_char (c : Char) {run : List Char} {rest : List String}
    (h : chunks ms = String.ofList run :: rest) :
    chunks (.char c :: ms) = String.ofList (c :: run) :: rest := by
  obtain ⟨first, others, hsplit, hfirst, rfl⟩ := List.map_eq_cons_iff.mp h
  have hrun : first.filterMap Mark.char? = run := String.ofList_injective hfirst
  have hchar : ((Mark.char c).char?.isNone) = false := rfl
  rw [chunks, List.splitOnP_cons_eq_if_modifyHead, hchar, if_neg Bool.false_ne_true, hsplit,
    List.modifyHead_cons, List.map_cons, text, List.filterMap_cons, hrun]
  rfl

end Marks

/-! ## The items of a notation -/

namespace Item

/-- The marks of an item. -/
def marks : Item → List Mark
  | opening name => [.opening name]
  | closing => [.closing]
  | cursor => [.cursor]
  | text chunk => chunk.toList.map .char

/-- The lexemes of an item. -/
def lexemes : Item → List Lexeme
  | text chunk => Markup.lexemes chunk
  | _ => []

/-- An item of one mark that is no text is no text. -/
theorem not_text {item : Item} {m : Mark} (hmarks : item.marks = [m]) (hm : m.char? = none) :
    item.lexemes = [] ∧ ∀ chunk, item ≠ text chunk := by
  cases item with
  | text chunk =>
    obtain ⟨c, -, rfl⟩ := List.map_eq_singleton_iff.mp hmarks
    cases hm
  | _ => exact ⟨rfl, fun chunk h => by cases h⟩

/-- The text of an item is that of its lexemes. -/
theorem join_lexemes (item : Item) :
    String.join (item.lexemes.map (·.2)) = Markup.text item.marks := by
  cases item with
  | text chunk =>
    rw [lexemes, Markup.lexemes, List.map_map, marks, text_map_char, String.ofList_toList]
    exact Token.join_scan chunk
  | _ => rfl

/-- The lexemes of the items put the text together. -/
theorem join_flatMap_lexemes (items : List Item) :
    String.join ((items.flatMap lexemes).map (·.2)) = Markup.text (items.flatMap marks) := by
  induction items with
  | nil => rfl
  | cons item items ih =>
    rw [List.flatMap_cons, List.flatMap_cons, List.map_append, String.join_append, join_lexemes, ih,
      text_append]

end Item

/-- The items behind a run of characters put the marks together that follow the
run. -/
structure Reads (ms : List Mark) (run : List Char) (items : List Item) : Prop where
  /-- The marks are those of the run and of the items. -/
  marks_eq : run.map .char ++ items.flatMap Item.marks = ms
  /-- The run is the first chunk, and the items have the lexemes of the others. -/
  chunks_eq : ∃ others, chunks ms = String.ofList run :: others ∧
    others.flatMap lexemes = items.flatMap Item.lexemes
  /-- No text is empty. -/
  text_ne : ∀ chunk, .text chunk ∈ items → chunk ≠ ""

namespace Reads

theorem nil : Reads [] [] [] := ⟨rfl, ⟨[], rfl, rfl⟩, fun _ h => by cases h⟩

variable {ms : List Mark} {run : List Char} {items : List Item} (reads : Reads ms run items)

include reads

/-- A character goes on with the text that is read. -/
theorem char (c : Char) : Reads (.char c :: ms) (c :: run) items := by
  obtain ⟨others, hchunks, hlexemes⟩ := reads.chunks_eq
  refine ⟨?_, ⟨others, chunks_char ms c hchunks, hlexemes⟩, reads.text_ne⟩
  rw [List.map_cons, List.cons_append, reads.marks_eq]

/-- The items have the marks that were read. -/
theorem flatMap_marks : (withText (run, items)).flatMap Item.marks = ms := by
  rw [← reads.marks_eq]
  cases run with
  | nil => rfl
  | cons c cs => simp [withText, Item.marks]

/-- The items have the lexemes of the runs of text. -/
theorem flatMap_lexemes :
    (withText (run, items)).flatMap Item.lexemes = (chunks ms).flatMap lexemes := by
  obtain ⟨others, hchunks, hlexemes⟩ := reads.chunks_eq
  rw [hchunks, List.flatMap_cons, hlexemes]
  cases run with
  | nil => rfl
  | cons c cs => rfl

theorem withText_ne (chunk : String) (h : .text chunk ∈ withText (run, items)) : chunk ≠ "" := by
  cases run with
  | nil => exact reads.text_ne chunk h
  | cons c cs =>
    rcases List.mem_cons.mp h with heq | hmem
    · rw [Item.text.inj heq, ← String.toList_inj.ne, String.toList_ofList]
      exact List.cons_ne_nil c cs
    · exact reads.text_ne chunk hmem

/-- An item of one mark that is no text ends the run before it. -/
theorem item {item : Item} {m : Mark} (hmarks : item.marks = [m]) (hm : m.char? = none) :
    Reads (m :: ms) [] (item :: withText (run, items)) := by
  obtain ⟨hlexemes, hne⟩ := Item.not_text hmarks hm
  refine ⟨?_, ⟨chunks ms, chunks_of_char?_eq_none m ms hm, ?_⟩, fun chunk hmem => ?_⟩
  · rw [List.flatMap_cons, hmarks, reads.flatMap_marks]
    rfl
  · rw [List.flatMap_cons, hlexemes, reads.flatMap_lexemes, List.nil_append]
  · rcases List.mem_cons.mp hmem with heq | hrest
    · exact absurd heq.symm (hne chunk)
    · exact reads.withText_ne chunk hrest

end Reads

/-- The name that a text starts with is the longest one, and the items behind the
name put the marks together that follow it. -/
def ReadsName (cs : List Char) : Prop :=
  (split .name cs).1 = cs.takeWhile inName ∧
    ∃ run items, (split .name cs).2 = withText (run, items) ∧
      Reads (marks (skipSpace (cs.dropWhile inName))) run items

section Cons

variable {cs : List Char} (htext : Reads (marks cs) (split .text cs).1 (split .text cs).2)

include htext

theorem reads_closing : Reads (.closing :: marks cs) [] (.closing :: withText (split .text cs)) :=
  htext.item rfl rfl

/-- As text, a character is a mark of its own or goes to the run. -/
theorem reads_text_cons (hname : ReadsName cs) (c : Char) :
    Reads (marks (c :: cs)) (split .text (c :: cs)).1 (split .text (c :: cs)).2 := by
  obtain ⟨hname, run, items, hitems, hrest⟩ := hname
  rw [marks]
  by_cases hopen : c = '\x7b'
  · have hsplit : split .text (c :: cs) =
        ([], .opening (String.ofList (split .name cs).1) :: (split .name cs).2) := by
      simp [split, hopen]
    rw [hsplit, if_pos hopen, hname, hitems]
    exact hrest.item rfl rfl
  rw [if_neg hopen]
  by_cases hclose : c = '\x7d'
  · simp only [split, hclose]
    exact reads_closing htext
  rw [if_neg hclose]
  by_cases hcursor : c = '$'
  · simp only [split, hcursor]
    exact htext.item rfl rfl
  have hsplit : split .text (c :: cs) = (c :: (split .text cs).1, (split .text cs).2) := by
    simp [split, hopen, hclose, hcursor]
  rw [if_neg hcursor, hsplit]
  exact htext.char c

/-- In a name, a character ends the name or belongs to it. -/
theorem readsName_cons (hname : ReadsName cs) (c : Char) : ReadsName (c :: cs) := by
  obtain ⟨hname, run, items, hitems, hrest⟩ := hname
  unfold ReadsName
  by_cases hspace : c = ' '
  · have hsplit : split .name (c :: cs) = ([], withText (split .text cs)) := by
      simp [split, hspace]
    have hout : ¬ inName c = true := by simp [inName, hspace]
    rw [hsplit, List.takeWhile_cons_of_neg hout, List.dropWhile_cons_of_neg hout, skipSpace,
      if_pos (by simp [hspace])]
    exact ⟨rfl, _, _, rfl, htext⟩
  by_cases hclose : c = '\x7d'
  · have hsplit : split .name (c :: cs) = ([], .closing :: withText (split .text cs)) := by
      simp [split, hclose]
    have hout : ¬ inName c = true := by simp [inName, hclose]
    have hmarks : marks (c :: cs) = .closing :: marks cs := by simp [marks, hclose]
    rw [hsplit, List.takeWhile_cons_of_neg hout, List.dropWhile_cons_of_neg hout, skipSpace,
      if_neg (by simp [hspace]), hmarks]
    exact ⟨rfl, [], _, rfl, reads_closing htext⟩
  have hsplit : split .name (c :: cs) = (c :: (split .name cs).1, (split .name cs).2) := by
    simp [split, hspace, hclose]
  have hin : inName c = true := by simp [inName, hspace, hclose]
  rw [hsplit, List.takeWhile_cons_of_pos hin, List.dropWhile_cons_of_pos hin, hname]
  exact ⟨rfl, run, items, hitems, hrest⟩

end Cons

/-- The items of a notation put its marks together.  The two modes of reading call
each other, so they are followed side by side. -/
theorem reads_split (cs : List Char) :
    Reads (marks cs) (split .text cs).1 (split .text cs).2 ∧ ReadsName cs := by
  induction cs with
  | nil =>
    have hnil : marks [] = [] := by rw [marks]
    have hskip : skipSpace [] = [] := rfl
    refine ⟨?_, rfl, [], [], rfl, ?_⟩
    · rw [hnil]
      exact .nil
    · rw [List.dropWhile_nil, hskip, hnil]
      exact .nil
  | cons c cs ih => exact ⟨reads_text_cons ih.1 ih.2 c, readsName_cons ih.1 ih.2 c⟩

/-! ## Depth -/

/-- The number of open nodes behind a mark, if the mark has a place where `k` nodes
are open. -/
def Mark.walk (k : Nat) : Mark → Option Nat
  | opening name => if (Rule.ofName? name).isSome then some (k + 1) else none
  | closing => if k = 0 then none else some (k - 1)
  | cursor => some k
  | char _ => if k = 0 then none else some k

/-- The number of open nodes behind marks. -/
def walk (k : Nat) (ms : List Mark) : Option Nat := ms.foldlM Mark.walk k

theorem walk_cons (k : Nat) (m : Mark) (ms : List Mark) :
    walk k (m :: ms) = (m.walk k).bind fun n => walk n ms := List.foldlM_cons

theorem walk_append (k : Nat) (ms more : List Mark) :
    walk k (ms ++ more) = (walk k ms).bind fun n => walk n more := List.foldlM_append

/-- A mark can be carried out if its rule is known and a node is open where one is
needed. -/
theorem Mark.walk_eq_some_iff {m : Mark} {k n : Nat} :
    m.walk k = some n ↔ (∀ name, m = opening name → ∃ r : Rule, r.name = name) ∧
      (m.needsNode = true → 1 ≤ (k : Int)) ∧ (n : Int) = k + m.rise := by
  cases m with
  | opening name =>
    simp only [Mark.walk, Option.isSome_iff_exists, Rule.ofName?_eq_some_iff,
      Option.ite_none_right_eq_some, Option.some.injEq, opening.injEq, forall_eq', needsNode,
      Bool.false_eq_true, IsEmpty.forall_iff, rise, true_and]
    refine and_congr_right fun _ => ?_
    omega
  | closing =>
    simp only [Mark.walk, Option.ite_none_left_eq_some, Option.some.injEq, reduceCtorEq,
      IsEmpty.forall_iff, implies_true, needsNode, forall_const, rise, true_and]
    omega
  | cursor =>
    simp only [Mark.walk, Option.some.injEq, reduceCtorEq, IsEmpty.forall_iff, implies_true,
      needsNode, Bool.false_eq_true, rise, true_and]
    omega
  | char c =>
    simp only [Mark.walk, Option.ite_none_left_eq_some, Option.some.injEq, reduceCtorEq,
      IsEmpty.forall_iff, implies_true, needsNode, forall_const, rise, true_and]
    omega

theorem Mark.exists_rise {m : Mark} {k : Nat} (h : m.needsNode = true → 1 ≤ (k : Int)) :
    ∃ n : Nat, (n : Int) = k + m.rise := by
  refine Int.eq_ofNat_of_zero_le ?_ |>.imp fun n hn => hn.symm
  cases m with
  | closing =>
    have hk := h rfl
    show 0 ≤ (k : Int) + -1
    omega
  | opening name =>
    show 0 ≤ (k : Int) + 1
    omega
  | _ => exact Int.add_nonneg (Int.natCast_nonneg k) (Int.le_refl 0)

/-- Marks are walked through if and only if every name is that of a rule and no mark
that needs a node comes at depth 0.  The walk counts the depth. -/
theorem walk_eq_some_iff {ms : List Mark} {k n : Nat} :
    walk k ms = some n ↔ (∀ name, .opening name ∈ ms → ∃ r : Rule, r.name = name) ∧
      (∀ before m, before ++ [m] <+: ms → m.needsNode = true → 1 ≤ k + depth before) ∧
      (n : Int) = k + depth ms := by
  induction ms generalizing k with
  | nil =>
    have hstart : ∀ (before : List Mark) (m : Mark), ¬ before ++ [m] <+: [] := by simp
    constructor
    · intro hwalk
      cases hwalk
      exact ⟨by simp, fun before m h => absurd h (hstart before m), by simp⟩
    · rintro ⟨-, -, hn⟩
      rw [depth_nil, Int.add_zero] at hn
      exact congrArg some (Int.ofNat_inj.mp hn).symm
  | cons m ms ih =>
    rw [walk_cons, Option.bind_eq_some_iff]
    constructor
    · rintro ⟨j, hfirst, hrest⟩
      obtain ⟨hname, hnode, hj⟩ := Mark.walk_eq_some_iff.mp hfirst
      obtain ⟨hnamed, hinside, hn⟩ := ih.mp hrest
      refine ⟨fun name hmem => ?_, fun before m' hstart hneeds => ?_, ?_⟩
      · rcases List.mem_cons.mp hmem with heq | hmem
        · exact hname name heq.symm
        · exact hnamed name hmem
      · cases before with
        | nil =>
          obtain ⟨rfl, -⟩ := List.cons_prefix_cons.mp hstart
          have hk := hnode hneeds
          rw [depth_nil]
          omega
        | cons b bs =>
          obtain ⟨rfl, hbehind⟩ := List.cons_prefix_cons.mp hstart
          have hdeep := hinside bs m' hbehind hneeds
          rw [depth_cons]
          omega
      · rw [depth_cons]
        omega
    · rintro ⟨hnamed, hinside, hn⟩
      have hnode : m.needsNode = true → 1 ≤ (k : Int) := by
        intro hneeds
        have hdeep := hinside [] m (List.cons_prefix_cons.mpr ⟨rfl, List.nil_prefix⟩) hneeds
        rwa [depth_nil, Int.add_zero] at hdeep
      obtain ⟨j, hj⟩ := Mark.exists_rise hnode
      have hname : ∀ name, m = .opening name → ∃ r : Rule, r.name = name := by
        intro name heq
        exact hnamed name (heq ▸ List.mem_cons_self)
      refine ⟨j, Mark.walk_eq_some_iff.mpr ⟨hname, hnode, hj⟩, ih.mpr ⟨fun name hmem => ?_,
        fun before m' hstart hneeds => ?_, ?_⟩⟩
      · exact hnamed name (List.mem_cons_of_mem m hmem)
      · have hdeep := hinside (m :: before) m' (List.cons_prefix_cons.mpr ⟨rfl, hstart⟩) hneeds
        rw [depth_cons] at hdeep
        omega
      · rw [depth_cons] at hn
        omega

end Markup

/-! ## What a draft gains -/

/-- From the draft `d` to the draft `d'` the leaves have gained lexemes and the
interior nodes names. -/
structure Draft.Grown (d : Draft) (lexemes : List Markup.Lexeme) (names : List String)
    (d' : Draft) : Prop where
  leaves : (d'.tree.tokens.map fun tok => (tok.kind, tok.text)) =
    (d.tree.tokens.map fun tok => (tok.kind, tok.text)) ++ lexemes
  names : d'.tree.rules.map Rule.name = d.tree.rules.map Rule.name ++ names
  offset : d'.offset = d.offset + (String.join (lexemes.map (·.2))).utf8ByteSize

namespace Draft

variable {d d' d'' : Draft}

/-- A new child leaves the labels as they are. -/
theorem map_label_adopted : d.adopted.toList.map (·.label) = d.nodes.toList.map (·.label) := by
  refine List.ext_getElem? fun x => ?_
  rw [List.getElem?_map, List.getElem?_map, Array.getElem?_toList, Array.getElem?_toList,
    getElem?_adopted, Option.map_map]
  congr 1
  funext n
  simp only [Function.comp_apply]
  split <;> rfl

/-- A new row adds its rule to those of the tree. -/
theorem rules_push (label : Label) :
    (d.push label).tree.rules = d.tree.rules ++ label.rule?.toList := by
  have hlabels : ∀ ns : List Node,
      ns.filterMap (·.label.rule?) = (ns.map (·.label)).filterMap Label.rule? := by
    intro ns
    rw [List.filterMap_map]
    rfl
  rw [Tree.rules, tree, push, Array.toList_push, List.filterMap_append, hlabels,
    map_label_adopted, ← hlabels]
  cases label <;> rfl

namespace Grown

theorem refl (d : Draft) : Grown d [] [] d := ⟨by simp, by simp, by simp⟩

/-- What has grown twice has grown by both. -/
theorem trans {lexemes lexemes' : List Markup.Lexeme} {names names' : List String}
    (first : Grown d lexemes names d') (second : Grown d' lexemes' names' d'') :
    Grown d (lexemes ++ lexemes') (names ++ names') d'' where
  leaves := by rw [second.leaves, first.leaves, List.append_assoc]
  names := by rw [second.names, first.names, List.append_assoc]
  offset := by
    rw [second.offset, first.offset, List.map_append, String.join_append,
      String.utf8ByteSize_append, Nat.add_assoc]

theorem openNode (d : Draft) (r : Rule) : Grown d [] [r.name] (d.openNode r) where
  leaves := by
    show ((d.push (.rule r)).tree.tokens.map _) = _
    rw [tokens_push]
    simp [Label.token?]
  names := by
    show (d.push (.rule r)).tree.rules.map Rule.name = _
    rw [rules_push]
    simp [Label.rule?]
  offset := rfl

theorem popNode (d : Draft) : Grown d [] [] d.popNode :=
  ⟨(List.append_nil _).symm, (List.append_nil _).symm, rfl⟩

theorem extend (d : Draft) (kind : Kind) (text : String) :
    Grown d [(kind, text)] [] (d.extend kind text) where
  leaves := by
    show ((d.push (.token ⟨kind, text, d.offset⟩)).tree.tokens.map _) = _
    rw [tokens_push]
    simp [Label.token?]
  names := by
    show (d.push (.token ⟨kind, text, d.offset⟩)).tree.rules.map Rule.name = _
    rw [rules_push]
    simp [Label.rule?]
  offset := by simp [Draft.extend]

end Grown

/-- Tokens that all go in are gained. -/
theorem grown_of_addTokens {toks : List Token} (h : d.addTokens toks = (d', none)) :
    Grown d (toks.map fun tok => (tok.kind, tok.text)) [] d' := by
  induction toks generalizing d with
  | nil =>
    cases h
    exact .refl _
  | cons tok toks ih =>
    rw [addTokens, addToken_eq] at h
    by_cases hopen : d.openNodes = []
    · rw [if_pos hopen] at h
      cases h
    · rw [if_neg hopen] at h
      exact (Grown.extend d tok.kind tok.text).trans (ih h)

/-- Text is refused when no node is open. -/
theorem addText_of_closed (hopen : d.openNodes = []) {s : String} (hne : s ≠ "") :
    ∃ fault, d.addText s = (d, some fault) := by
  rw [addText, addTokens_of_closed hopen]
  cases hscan : Token.scan s with
  | nil => exact absurd (Token.scan_eq_nil_iff.mp hscan) hne
  | cons tok toks => exact ⟨_, rfl⟩

end Draft

namespace Markup

/-! ## Carrying the items out -/

/-- The number of open nodes. -/
def Progress.depth (p : Progress) : Nat := p.draft.openNodes.length

section CarryOut

variable {p q : Progress} {item : Item} {items : List Item}

/-- Text has a place if a node is open. -/
theorem walk_map_char {k : Nat} {cs : List Char} (hne : cs ≠ []) :
    walk k (cs.map .char) = if k = 0 then none else some k := by
  by_cases hk : k = 0
  · obtain ⟨c, rest, rfl⟩ := List.exists_cons_of_ne_nil hne
    simp [walk_cons, Mark.walk, hk]
  · rw [if_neg hk]
    clear hne
    induction cs with
    | nil => rfl
    | cons c cs ih =>
      rw [List.map_cons, walk_cons, Mark.walk, if_neg hk]
      exact ih

/-- An item is carried out if and only if its marks have a place, and the number of
open nodes is the depth. -/
theorem walk_item (hne : ∀ chunk, item = .text chunk → chunk ≠ "") :
    walk p.depth item.marks = (carryOut p item).toOption.map Progress.depth := by
  cases item with
  | opening name =>
    rw [Item.marks, walk_cons, Mark.walk, carryOut]
    cases Rule.ofName? name with
    | none => rfl
    | some r => rfl
  | closing =>
    rw [Item.marks, walk_cons, Mark.walk, carryOut, Draft.closeNode, Progress.depth]
    cases hopen : p.draft.openNodes with
    | nil => rfl
    | cons x rest => rfl
  | cursor => rfl
  | text chunk =>
    have hchars : chunk.toList ≠ [] := by
      rw [Ne, String.toList_eq_nil_iff]
      exact hne chunk rfl
    rw [Item.marks, walk_map_char hchars, carryOut, Progress.depth]
    by_cases hopen : p.draft.openNodes = []
    · obtain ⟨fault, hadd⟩ := Draft.addText_of_closed hopen (hne chunk rfl)
      rw [if_pos (List.length_eq_zero_iff.mpr hopen), hadd]
      rfl
    · obtain ⟨d, hadd, hsame⟩ := Draft.addTokens_of_open hopen (Token.scan chunk)
      rw [if_neg (mt List.length_eq_zero_iff.mp hopen), Draft.addText, hadd, ← hsame]
      rfl

/-- Items are carried out if and only if their marks have a place. -/
theorem walk_items (hne : ∀ chunk, .text chunk ∈ items → chunk ≠ "") :
    walk p.depth (items.flatMap Item.marks) =
      (carryOutAll p items).toOption.map Progress.depth := by
  induction items generalizing p with
  | nil => rfl
  | cons item items ih =>
    have hfirst : walk p.depth item.marks = (carryOut p item).toOption.map Progress.depth :=
      walk_item fun chunk heq => hne chunk (heq ▸ List.mem_cons_self)
    rw [List.flatMap_cons, walk_append, hfirst, carryOutAll]
    cases carryOut p item with
    | error fault => rfl
    | ok next => exact ih fun chunk hmem => hne chunk (List.mem_cons_of_mem item hmem)

/-- The steps of construction that carry an item out. -/
def Item.steps : Item → List Step
  | .opening name => (Rule.ofName? name).toList.map .openNode
  | .closing => [.closeNode]
  | .cursor => []
  | .text chunk => [.text chunk]

/-- Along marks that start at an offset, the cursor goes from `old` to `new`. -/
def CursorMoves (start : Nat) (ms : List Mark) (old new : Option Nat) : Prop :=
  (∃ before after, ms = before ++ .cursor :: after ∧ .cursor ∉ after ∧
    new = some (start + (text before).utf8ByteSize)) ∨ (.cursor ∉ ms ∧ new = old)

/-- The cursor is moved by one part after the other. -/
theorem CursorMoves.append {start : Nat} {ms more : List Mark} {a b c : Option Nat}
    (first : CursorMoves start ms a b)
    (second : CursorMoves (start + (text ms).utf8ByteSize) more b c) :
    CursorMoves start (ms ++ more) a c := by
  rcases second with ⟨before, after, rfl, hlast, rfl⟩ | ⟨hnone, rfl⟩
  · refine .inl ⟨ms ++ before, after, (List.append_assoc ..).symm, hlast, ?_⟩
    rw [text_append, String.utf8ByteSize_append, Nat.add_assoc]
  · rcases first with ⟨before, after, rfl, hlast, rfl⟩ | ⟨hfirst, rfl⟩
    · refine .inl ⟨before, after ++ more, List.append_assoc .., ?_, rfl⟩
      simp [hlast, hnone]
    · exact .inr ⟨by simp [hfirst, hnone], rfl⟩

/-- What carrying items out leads to. -/
structure CarriedOut (p : Progress) (items : List Item) (q : Progress) : Prop where
  /-- The draft is that of a run. -/
  run : q.draft = p.draft.run (items.flatMap Item.steps)
  /-- The draft gains the lexemes and the names of the items. -/
  grown : p.draft.Grown (items.flatMap Item.lexemes)
    ((items.flatMap Item.marks).filterMap Mark.name?) q.draft
  /-- The last cursor counts. -/
  cursor : CursorMoves p.draft.offset (items.flatMap Item.marks) p.cursor q.cursor

theorem carriedOut_item (h : carryOut p item = .ok q) : CarriedOut p [item] q := by
  cases item with
  | opening name =>
    rw [carryOut] at h
    cases hname : Rule.ofName? name with
    | none =>
      rw [hname] at h
      cases h
    | some r =>
      rw [hname] at h
      cases h
      refine ⟨?_, ?_, .inr ⟨by simp [Item.marks], rfl⟩⟩
      · simp only [List.flatMap_singleton, Item.steps, hname]
        rfl
      · rw [← Rule.ofName?_eq_some_iff.mp hname]
        exact .openNode p.draft r
  | closing =>
    rw [carryOut, Draft.closeNode_eq] at h
    by_cases hopen : p.draft.openNodes = []
    · rw [if_pos hopen] at h
      cases h
    · rw [if_neg hopen] at h
      cases h
      refine ⟨?_, .popNode p.draft, .inr ⟨by simp [Item.marks], rfl⟩⟩
      simp only [List.flatMap_singleton, Item.steps]
      show p.draft.popNode = p.draft.closeNode.1
      rw [Draft.closeNode_eq, if_neg hopen]
  | cursor =>
    cases h
    exact ⟨rfl, .refl p.draft, .inl ⟨[], [], rfl, List.not_mem_nil, rfl⟩⟩
  | text chunk =>
    rw [carryOut] at h
    cases hadd : p.draft.addText chunk with
    | mk d fault? =>
      rw [hadd] at h
      cases fault? with
      | some fault => cases h
      | none =>
        cases h
        have hnames : (chunk.toList.map Mark.char).filterMap Mark.name? = [] := by simp [Mark.name?]
        refine ⟨?_, ?_, .inr ⟨by simp [Item.marks], rfl⟩⟩
        · show d = (p.draft.addText chunk).1
          rw [hadd]
        · rw [List.flatMap_singleton, List.flatMap_singleton, Item.marks, hnames]
          exact Draft.grown_of_addTokens hadd

/-- Items that are carried out one part after the other. -/
theorem CarriedOut.append {p q q' : Progress} {items more : List Item}
    (first : CarriedOut p items q) (second : CarriedOut q more q') :
    CarriedOut p (items ++ more) q' where
  run := by rw [second.run, first.run, List.flatMap_append, Draft.run_append]
  grown := by
    rw [List.flatMap_append, List.flatMap_append, List.filterMap_append]
    exact first.grown.trans second.grown
  cursor := by
    have hsecond := second.cursor
    rw [first.grown.offset, Item.join_flatMap_lexemes] at hsecond
    rw [List.flatMap_append]
    exact first.cursor.append hsecond

/-- Carrying items out, step by step. -/
theorem carriedOut_items (h : carryOutAll p items = .ok q) : CarriedOut p items q := by
  induction items generalizing p with
  | nil =>
    cases h
    exact ⟨rfl, .refl _, .inr ⟨List.not_mem_nil, rfl⟩⟩
  | cons item items ih =>
    rw [carryOutAll] at h
    cases hitem : carryOut p item with
    | error fault =>
      rw [hitem] at h
      cases h
    | ok next =>
      rw [hitem] at h
      exact (carriedOut_item hitem).append (ih h)

end CarryOut

/-! ## Trees -/

variable {markup : String} {t : Tree} {offset : Nat}

/-- A notation gives a tree exactly if its items are carried out and the draft is
finished. -/
theorem ofMarkup_eq_ok_iff :
    Tree.ofMarkup markup = .ok (t, offset) ↔
      ∃ q, carryOutAll ⟨.empty, none⟩ (items markup) = .ok q ∧ q.draft.finish = .ok t ∧
        offset = q.cursor.getD q.draft.offset := by
  rw [Tree.ofMarkup]
  cases carryOutAll ⟨.empty, none⟩ (items markup) with
  | error fault => simp
  | ok q =>
    cases hfinish : q.draft.finish with
    | error cause => simp [hfinish]
    | ok tree => simp [hfinish, eq_comm]

/-- The items of a notation have its marks and its lexemes, and no text is empty. -/
theorem reads_items (markup : String) :
    (items markup).flatMap Item.marks = marks markup.toList ∧
      (items markup).flatMap Item.lexemes = (chunks (marks markup.toList)).flatMap lexemes ∧
      ∀ chunk, .text chunk ∈ items markup → chunk ≠ "" := by
  obtain ⟨reads, -⟩ := reads_split markup.toList
  exact ⟨reads.flatMap_marks, reads.flatMap_lexemes, reads.withText_ne⟩

/-- The tree of a notation is the one that its marks describe. -/
theorem ofMarkup_describes (h : Tree.ofMarkup markup = .ok (t, offset)) :
    Describes (marks markup.toList) t offset := by
  obtain ⟨q, hq, hfinish, rfl⟩ := ofMarkup_eq_ok_iff.mp h
  obtain ⟨hmarks, hlexemes, -⟩ := reads_items markup
  have hout := carriedOut_items hq
  have hgrown := hout.grown
  have hmoves := hout.cursor
  rw [hmarks] at hgrown hmoves
  have hsteps : Tree.ofSteps ((items markup).flatMap Item.steps) = .ok t := by
    rw [Tree.ofSteps, ← hout.run, hfinish]
  have doc := Tree.document_of_ofSteps hsteps
  obtain ⟨-, -, rfl⟩ := Draft.finish_eq_ok_iff.mp hfinish
  have hleaves : (q.draft.tree.tokens.map fun tok => (tok.kind, tok.text)) =
      (items markup).flatMap Item.lexemes := hgrown.leaves
  have hsource : q.draft.tree.source = text (marks markup.toList) := by
    rw [doc.source_eq, ← hmarks, ← Item.join_flatMap_lexemes, ← hleaves, List.map_map]
    rfl
  have hoffset : q.draft.offset = (text (marks markup.toList)).utf8ByteSize := by
    rw [← hsource, Tree.length_of_ofSteps hsteps, hout.run]
  refine ⟨hsource, ?_, ?_, hgrown.names, ?_⟩
  · rw [hleaves, hlexemes]
  · rw [← hsource]
    exact doc.tiled
  · rcases hmoves with ⟨before, after, hsplit, hlast, hcursor⟩ | ⟨hnone, hcursor⟩
    · refine .inl ⟨before, after, hsplit, hlast, ?_⟩
      rw [hcursor, Option.getD_some]
      exact Nat.zero_add _
    · refine .inr ⟨hnone, ?_⟩
      rw [hcursor, ← hoffset]
      rfl

/-- A notation that is carried out has a node if and only if a brace is opened. -/
theorem nodes_pos_iff {q : Progress}
    (hq : carryOutAll ⟨.empty, none⟩ (items markup) = .ok q) :
    0 < q.draft.nodes.size ↔ ∃ name, .opening name ∈ marks markup.toList := by
  have hout := carriedOut_items hq
  have hnames : q.draft.tree.rules.map Rule.name =
      (marks markup.toList).filterMap Mark.name? := by
    rw [← (reads_items markup).1]
    exact hout.grown.names
  have hsound : q.draft.Sound := by
    rw [hout.run]
    exact Draft.sound_run _
  constructor
  · intro hpos
    obtain ⟨r, hroot⟩ := Option.isSome_iff_exists.mp (hsound.rows hpos).rule?_root
    obtain ⟨n, hn, hr⟩ := Option.bind_eq_some_iff.mp hroot
    have hrule : r ∈ q.draft.tree.rules :=
      List.mem_filterMap.mpr ⟨n, Array.mem_toList_iff.mpr (Array.mem_of_getElem? hn), hr⟩
    have hname := List.mem_map_of_mem (f := Rule.name) hrule
    rw [hnames] at hname
    obtain ⟨m, hmem, hm⟩ := List.mem_filterMap.mp hname
    cases m with
    | opening name => exact ⟨name, hmem⟩
    | _ => cases hm
  · rintro ⟨name, hmem⟩
    have hname : name ∈ (marks markup.toList).filterMap Mark.name? :=
      List.mem_filterMap.mpr ⟨_, hmem, rfl⟩
    rw [← hnames] at hname
    obtain ⟨r, hrule, -⟩ := List.mem_map.mp hname
    obtain ⟨node, hnode, -⟩ := List.mem_filterMap.mp hrule
    exact Array.size_pos_of_mem (Array.mem_toList_iff.mp hnode)

/-- A notation describes a tree if and only if its marks are legal. -/
theorem exists_ofMarkup_iff :
    (∃ t offset, Tree.ofMarkup markup = .ok (t, offset)) ↔ Legal (marks markup.toList) := by
  obtain ⟨hmarks, -, hne⟩ := reads_items markup
  have hwalk := @walk_items ⟨.empty, none⟩ (items markup) hne
  rw [hmarks] at hwalk
  constructor
  · rintro ⟨t, offset, h⟩
    obtain ⟨q, hq, hfinish, -⟩ := ofMarkup_eq_ok_iff.mp h
    obtain ⟨hclosed, hpos, -⟩ := Draft.finish_eq_ok_iff.mp hfinish
    have hdepth : walk 0 (marks markup.toList) = some 0 := by
      rw [hq] at hwalk
      refine hwalk.trans (congrArg some ?_)
      rw [Progress.depth, hclosed]
      rfl
    obtain ⟨hnamed, hinside, hzero⟩ := walk_eq_some_iff.mp hdepth
    refine ⟨hnamed, fun before m hstart hneeds => ?_, ?_, (nodes_pos_iff hq).mp hpos⟩
    · have hdeep := hinside before m hstart hneeds
      omega
    · omega
  · intro legal
    have hdepth : walk 0 (marks markup.toList) = some 0 := by
      refine walk_eq_some_iff.mpr ⟨legal.named, fun before m hstart hneeds => ?_, ?_⟩
      · have hdeep := legal.inside before m hstart hneeds
        omega
      · have hzero := legal.closed
        omega
    rw [show Progress.depth ⟨.empty, none⟩ = 0 from rfl, hdepth] at hwalk
    cases hq : carryOutAll ⟨.empty, none⟩ (items markup) with
    | error fault =>
      rw [hq] at hwalk
      cases hwalk
    | ok q =>
      rw [hq] at hwalk
      have hclosed : q.draft.openNodes = [] :=
        List.length_eq_zero_iff.mp (Option.some.inj hwalk).symm
      have hfinish : q.draft.finish = .ok q.draft.tree :=
        Draft.finish_eq_ok_iff.mpr ⟨hclosed, (nodes_pos_iff hq).mpr legal.node, rfl⟩
      exact ⟨_, _, ofMarkup_eq_ok_iff.mpr ⟨q, hq, hfinish, rfl⟩⟩

end Markup

namespace Tree

/-- The bracket notation accepts exactly its grammar and means what it says.  Read as
marks from left to right, a notation describes a tree if and only if every name is
that of a rule, text and closing braces stand inside of nodes, all nodes are closed
and there is one.  The document, the leaves, the rules and the cursor of the tree are
then those of the marks. -/
theorem ofMarkup_reads_marks (markup : String) :
    ((∃ t offset, ofMarkup markup = .ok (t, offset)) ↔ Markup.Legal (Markup.marks markup.toList)) ∧
      ∀ t offset, ofMarkup markup = .ok (t, offset) →
        Markup.Describes (Markup.marks markup.toList) t offset :=
  ⟨Markup.exists_ofMarkup_iff, fun _ _ h => Markup.ofMarkup_describes h⟩

/-- A word with a cursor in it behind a space that counts, and a node behind the
root with the last cursor. -/
def lateCursor : String := "\x7bSiddhiApp  a$b\x7bQuery c\x7d\x7d\x7bQuery $d\x7d"

theorem ofMarkup_reads_marks_lateCursor :
    ∃ t, ofMarkup lateCursor = .ok (t, 4) ∧ t.source = " abcd" ∧
      Markup.Legal (Markup.marks lateCursor.toList) ∧
      Markup.Describes (Markup.marks lateCursor.toList) t 4 := by
  obtain ⟨hlegal, hdescribes⟩ := ofMarkup_reads_marks lateCursor
  exact ⟨_, rfl, by decide, hlegal.mp ⟨_, _, rfl⟩, hdescribes _ _ rfl⟩

end Tree

end SiddhiEditor
