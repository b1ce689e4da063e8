import PhpScript.Proofs.Script.LineStart
import PhpScript.Proofs.Token.Wrapped
import PhpScript.Proofs.Token.Lexing

/-!
# Elements of array literals

A reader of script that only knows about quotes and brackets can count the
elements of an array literal by its commas. It goes over the text with a
`Tally`, and most texts leave the tally as it was: `Stays d` says so of a text
that is read outside quotes with at least `d` brackets open. Brackets around a
text need one less to be open, so it is only commas that stay from `1` on and
not from `0`.

* `Node.script_stays`: the script of a tree stays from `0` on, when its names are
  words and its strings have no backslashes, whose literals would not all end
  where they should;
* `array_elements`: the script of an array in a text that spans reach to the end
  has as many elements as the array has slots.
-/

namespace PhpScript.Script

/-! ## Tallies -/

/-- Whether a reader is in code, in a quoted string, or after a backslash in one. -/
inductive Region
  | code
  | quoted
  | escaped
deriving DecidableEq, Repr

/-- What a reader of script has seen. -/
structure Tally where
  /-- The brackets that are open. -/
  depth : Int := 0
  region : Region := .code
  /-- The commas in no brackets and in no quotes. -/
  commas : Nat := 0
deriving DecidableEq, Repr

/-- A bracket, parenthesis or brace that opens. -/
def isOpener (c : Char) : Bool := c == '[' || c == '(' || c == '\x7b'

/-- A bracket, parenthesis or brace that closes. -/
def isCloser (c : Char) : Bool := c == ']' || c == ')' || c == '\x7d'

namespace Tally

/-- Reads one character. -/
def step (t : Tally) (c : Char) : Tally :=
  match t.region with
  | .escaped => { t with region := .quoted }
  | .quoted =>
    if c == '\\' then { t with region := .escaped }
    else if c == '\'' then { t with region := .code }
    else t
  | .code =>
    if c == '\'' then { t with region := .quoted }
    else if isOpener c then { t with depth := t.depth + 1 }
    else if isCloser c then { t with depth := t.depth - 1 }
    else if c == ',' && t.depth == 0 then { t with commas := t.commas + 1 }
    else t

/-- Reads a text from left to right. -/
def read (t : Tally) (text : List Char) : Tally := text.foldl step t

@[simp] theorem read_nil (t : Tally) : t.read [] = t := rfl

@[simp] theorem read_cons (t : Tally) (c : Char) (text : List Char) :
    t.read (c :: text) = (t.step c).read text := rfl

@[simp] theorem read_append (t : Tally) (x y : List Char) :
    t.read (x ++ y) = (t.read x).read y :=
  List.foldl_append

end Tally

/-- The elements between the brackets of an array literal. -/
def elements (inner : List Char) : Nat :=
  if inner.isEmpty then 0 else (Tally.read {} inner).commas + 1

/-! ## Texts that change nothing -/

/-- Reading the text changes nothing, outside quotes and with at least `d` brackets open. -/
def Stays (d : Int) (text : String) : Prop :=
  ∀ depth commas, d ≤ depth → Tally.read ⟨depth, .code, commas⟩ text.toList = ⟨depth, .code, commas⟩

/-- A character that means nothing to a reader in code. -/
def isCalm (c : Char) : Bool := !(c == '\'' || isOpener c || isCloser c || c == ',')

theorem isCalm_of_isNamePart {c : Char} (h : isNamePart c) : isCalm c := by
  rw [isCalm, Bool.not_eq_true']
  refine Bool.eq_false_iff.2 fun hbad => ?_
  simp only [isOpener, isCloser, Bool.or_eq_true, beq_iff_eq] at hbad
  rcases hbad with (((rfl | (rfl | rfl) | rfl) | (rfl | rfl) | rfl) | rfl) <;> cases h

namespace Stays

variable {d : Int} {x y : String}

theorem append (hx : Stays d x) (hy : Stays d y) : Stays d (x ++ y) := by
  intro depth commas hd
  rw [String.toList_append, Tally.read_append, hx depth commas hd, hy depth commas hd]

theorem mono {e : Int} (hx : Stays d x) (hde : d ≤ e) : Stays e x :=
  fun depth commas he => hx depth commas (Int.le_trans hde he)

theorem of_isCalm (h : ∀ c ∈ x.toList, isCalm c) : Stays d x := by
  intro depth commas _
  generalize x.toList = cs at h
  induction cs with
  | nil => rfl
  | cons c cs ih =>
    rw [List.forall_mem_cons] at h
    have hc : Tally.step ⟨depth, .code, commas⟩ c = ⟨depth, .code, commas⟩ := by
      have hc := h.1
      simp only [isCalm, Bool.not_eq_true', Bool.or_eq_false_iff] at hc
      simp [Tally.step, hc]
    rw [Tally.read_cons, hc, ih h.2]

/-- A fixed text without such characters. -/
theorem plain (h : x.toList.all isCalm) : Stays d x :=
  of_isCalm (List.all_eq_true.1 h)

theorem empty : Stays d "" := plain rfl

/-- Inside brackets one more of them is open. -/
theorem wrap {opener closer : Char} (ho : isOpener opener) (hc : isCloser closer)
    (hx : Stays (d + 1) x) :
    Stays d (String.ofList [opener] ++ x ++ String.ofList [closer]) := by
  intro depth commas hd
  have hopen : Tally.step ⟨depth, .code, commas⟩ opener = ⟨depth + 1, .code, commas⟩ := by
    have hne : opener ≠ '\'' := by
      rintro rfl
      cases ho
    simp [Tally.step, ho, hne]
  have hclose : Tally.step ⟨depth + 1, .code, commas⟩ closer = ⟨depth, .code, commas⟩ := by
    simp only [isCloser, Bool.or_eq_true, beq_iff_eq] at hc
    rcases hc with (rfl | rfl) | rfl <;> simp [Tally.step, isOpener, isCloser]
  have hinner := hx (depth + 1) commas (Int.add_le_add_right hd 1)
  simp [hopen, hinner, hclose]

theorem join {separator : String} {texts : List String} (hs : Stays d separator)
    (h : ∀ x ∈ texts, Stays d x) : Stays d (Emit.join separator texts) := by
  induction texts with
  | nil => exact empty
  | cons x xs ih =>
    rw [List.forall_mem_cons] at h
    cases xs with
    | nil => simpa [Emit.join] using h.1
    | cons y ys =>
      rw [Emit.join, String.intercalate_cons_cons]
      exact (h.1.append hs).append (ih h.2)

/-- A comma does not count where brackets are open. -/
theorem comma : Stays 1 ", " := by
  intro depth commas hd
  have hne : depth ≠ 0 := by omega
  simp [Tally.step, isOpener, isCloser, hne]

theorem parens {texts : List String} (h : ∀ x ∈ texts, Stays 0 x) :
    Stays 0 (Emit.parens texts) :=
  wrap (by decide) (by decide) (join comma fun x hx => (h x hx).mono (by decide))

theorem brackets {texts : List String} (h : ∀ x ∈ texts, Stays 0 x) :
    Stays 0 ("[" ++ Emit.join ", " texts ++ "]") :=
  wrap (by decide) (by decide) (join comma fun x hx => (h x hx).mono (by decide))

theorem braces {texts : List String} (h : ∀ x ∈ texts, Stays 0 x) :
    Stays 0 (Emit.braces texts) := by
  have hbreak : Stays 1 "\n" := plain rfl
  have hlines := join hbreak fun x hx => (h x hx).mono (by decide)
  have hwrap : Stays 0 (String.ofList ['\x7b'] ++ ("\n" ++ Emit.join "\n" texts ++ "\n") ++
      String.ofList ['\x7d']) :=
    wrap rfl rfl ((hbreak.append hlines).append hbreak)
  simpa [Stays, Emit.braces] using hwrap

theorem word (h : isWord x.toList) : Stays d x :=
  of_isCalm fun c hc => isCalm_of_isNamePart (List.all_eq_true.1 (all_isNamePart_of_isWord h) c hc)

theorem digits {cs : List Char} (h : ∀ c ∈ cs, c.isDigit) : Stays d (String.ofList cs) := by
  refine of_isCalm fun c hc => isCalm_of_isNamePart ?_
  have hdecimal : isDecimal c := Rule.isDecimal_of_isDigit (h c (by simpa using hc))
  rw [isNamePart, Bool.or_eq_true]
  exact .inr hdecimal

end Stays

/-! ## Counting -/

theorem read_join {texts : List String} (h : ∀ x ∈ texts, Stays 0 x) (commas : Nat) :
    Tally.read ⟨0, .code, commas⟩ (Emit.join ", " texts).toList =
      ⟨0, .code, commas + (texts.length - 1)⟩ := by
  induction texts generalizing commas with
  | nil => rfl
  | cons x xs ih =>
    rw [List.forall_mem_cons] at h
    have hx := h.1 0 commas (Int.le_refl 0)
    cases xs with
    | nil => simpa [Emit.join] using hx
    | cons y ys =>
      have hcomma : Tally.read ⟨0, .code, commas⟩ ", ".toList = ⟨0, .code, commas + 1⟩ := rfl
      rw [Emit.join, String.intercalate_cons_cons, ← Emit.join, String.toList_append,
        String.toList_append, Tally.read_append, Tally.read_append, hx, hcomma, ih h.2]
      simp [Nat.add_assoc, Nat.add_comm 1]

/-- Texts that stay, with commas between them, are as many elements. -/
theorem elements_join {texts : List String} (h : ∀ x ∈ texts, Stays 0 x)
    (hne : ∀ x ∈ texts, x ≠ "") : elements (Emit.join ", " texts).toList = texts.length := by
  cases texts with
  | nil => rfl
  | cons x xs =>
    have hx : x ≠ "" := hne x List.mem_cons_self
    have hnonempty : (Emit.join ", " (x :: xs)).toList.isEmpty = false := by
      cases xs with
      | nil => simpa [Emit.join] using hx
      | cons y ys => simp [Emit.join, String.intercalate_cons_cons]
    rw [elements, hnonempty, if_neg Bool.false_ne_true, read_join h]
    simp

/-! ## Literals -/

theorem rename_stays {name : String} (h : isWord name.toList) : Stays 0 (rename name) := by
  unfold rename
  split
  · exact .plain rfl
  · exact .word h

theorem integer_stays (n : Int) : Stays 0 (integer n) := by
  have hsign : Stays 0 (if n < 0 then "-" else "") := by
    split <;> exact .plain rfl
  exact hsign.append (.digits isDigit_toDigits)

theorem writePositional_stays {digits : List Char} (point : Int) (h : ∀ c ∈ digits, c.isDigit) :
    Stays 0 (numberFormat.writePositional digits point) := by
  have hzeros (n : Nat) : Stays 0 (NumberNotation.zeros n) :=
    .digits fun c hc => by rw [List.eq_of_mem_replicate hc]; rfl
  unfold NumberNotation.writePositional
  split
  · exact (Stays.append (.plain rfl) (hzeros _)).append (.digits h)
  · split
    · exact ((Stays.digits h).append (hzeros _)).append (.plain rfl)
    · exact ((Stays.digits fun c hc => h c (List.mem_of_mem_take hc)).append
        (.plain rfl)).append (.digits fun c hc => h c (List.mem_of_mem_drop hc))

theorem float_stays (x : Double) : Stays 0 (float x) := by
  have hsign : Stays 0 (if x.isNegative then "-" else "") := by
    split <;> exact .plain rfl
  unfold float
  split
  · exact .plain rfl
  · split
    · split <;> exact .plain rfl
    · unfold NumberNotation.write
      simp only [numberFormat, if_true]
      split
      · exact (hsign.append (.plain rfl)).append (.plain rfl)
      · exact hsign.append (writePositional_stays _ isDigit_toDigits)

/-- Inside quotes an escaped string keeps the reader there. -/
theorem Tally.read_escape {cs : List Char} (h : '\\' ∉ cs) (depth : Int) (commas : Nat) :
    Tally.read ⟨depth, .quoted, commas⟩ (escape cs) = ⟨depth, .quoted, commas⟩ := by
  induction cs with
  | nil => rfl
  | cons c cs ih =>
    have hc : '\\' ≠ c := List.ne_of_not_mem_cons h
    have hcs : '\\' ∉ cs := List.not_mem_of_not_mem_cons h
    by_cases hquote : c = '\''
    · simpa [escape, hquote, step] using ih hcs
    · simpa [escape, hquote, step, hc.symm] using ih hcs

theorem quote_stays {value : String} (h : '\\' ∉ value.toList) : Stays 0 (quote value) := by
  intro depth commas _
  simp [quote, Tally.step, Tally.read_escape h]

end PhpScript.Script

namespace PhpScript

open Script (Stays)

/-! ## Trees -/

namespace Node

/-- The names of the node itself are words, and its string has no backslash. -/
def IsTame (n : Node) : Prop :=
  n.IsSpelled ∧ ∀ value s, n = .string value s → '\\' ∉ value.toList

theorem scriptList_eq_map (nodes : List Node) : scriptList nodes = nodes.map script := by
  induction nodes with
  | nil => rfl
  | cons n nodes ih => rw [scriptList, List.map_cons, ih]

theorem scriptSlots_eq_map (slots : List (Option Node)) :
    scriptSlots slots = slots.map fun slot => slot.elim "null" script := by
  induction slots with
  | nil => rfl
  | cons slot slots ih => cases slot <;> simp [scriptSlots, ih]

theorem scriptList_stays {nodes : List Node} (h : ∀ n ∈ nodes, Stays 0 n.script) :
    ∀ x ∈ scriptList nodes, Stays 0 x := by
  rw [scriptList_eq_map]
  exact List.forall_mem_map.2 h

theorem scriptSlots_stays {slots : List (Option Node)}
    (h : ∀ n ∈ slots.filterMap id, Stays 0 n.script) : ∀ x ∈ scriptSlots slots, Stays 0 x := by
  rw [scriptSlots_eq_map, List.forall_mem_map]
  rintro (_ | n) hn
  · exact .plain rfl
  · exact h n (List.mem_filterMap.2 ⟨_, hn, rfl⟩)

theorem scriptMember_stays {n : Node} (h : n.IsSpelled) : Stays 0 n.scriptMember := by
  cases n with
  | identifier => exact Script.rename_stays h
  | _ => exact .empty

theorem scriptName_stays {parts : List String} {fullyQualified : Bool}
    (h : ∀ part ∈ parts, isWord part.toList) : Stays 0 (scriptName parts fullyQualified) := by
  unfold scriptName
  split
  · exact .word (h _ (List.mem_singleton_self _))
  · exact .plain rfl

theorem staticMark_stays (modifiers : Modifiers) : Stays 0 (Emit.staticMark modifiers) := by
  unfold Emit.staticMark
  split <;> exact .plain rfl

/-- One step of `script_stays`: the script of a node is put together from those of the nodes
    below it. -/
theorem script_stays_of_children {n : Node} (htame : n.IsTame)
    (hspelled : ∀ child ∈ n.children, child.IsSpelled)
    (h : ∀ child ∈ n.children, Stays 0 child.script) : Stays 0 n.script := by
  cases n with
  | expression expr | argument expr | parameter expr | constant expr =>
    exact h expr (by simp [children])
  | returns value =>
    cases value with
    | none =>
      rw [script]
      exact .plain rfl
    | some value => exact .append (.plain rfl) (h value (by simp [children]))
  | namespaceBlock label body =>
    exact .join (.plain rfl) (scriptList_stays fun n hn => h n (by simp [children, hn]))
  | classDecl label resolved members =>
    have hmembers : Stays 0 (Emit.braces (scriptList members)) :=
      .braces (scriptList_stays fun n hn => h n (by simp [children, hn]))
    rcases resolved with _ | resolved
    · rcases label with _ | label
      · exact .empty
      · exact .append (.append (.plain rfl) (h label (by simp [children]))) hmembers
    · exact .append (.append (.plain rfl) (h resolved (by simp [children]))) hmembers
  | property modifiers items =>
    refine .join (.plain rfl) fun x hx => ?_
    obtain ⟨y, hy, rfl⟩ := List.mem_map.1 hx
    exact (staticMark_stays modifiers).append (scriptList_stays h y hy)
  | propertyItem label initial =>
    have hlabel := h label (by simp [children])
    rcases initial with _ | initial
    · exact hlabel.append (.plain rfl)
    · exact (hlabel.append (.plain rfl)).append (h initial (by simp [children]))
  | method modifiers label params body =>
    have hlabel := (staticMark_stays modifiers).append (h label (by simp [children]))
    have hparams : Stays 0 (Emit.parens (scriptList params)) :=
      .parens (scriptList_stays fun n hn => h n (by simp [children, hn]))
    rcases body with _ | body
    · exact ((hlabel.append hparams).append (.plain rfl)).append (.braces (by simp))
    · exact ((hlabel.append hparams).append (.plain rfl)).append
        (.braces (scriptList_stays fun n hn => h n (by simp [children, hn])))
  | methodCall target label args =>
    have hlabel := scriptMember_stays (hspelled label (by simp [children]))
    have hargs : Stays 0 (Emit.parens (scriptList args)) :=
      .parens (scriptList_stays fun n hn => h n (by simp [children, hn]))
    exact (((h target (by simp [children])).append (.plain rfl)).append hlabel).append hargs
  | functionCall callee args =>
    exact (h callee (by simp [children])).append
      (.parens (scriptList_stays fun n hn => h n (by simp [children, hn])))
  | construct cls args =>
    have hargs : Stays 0 (Emit.parens (scriptList args)) :=
      .parens (scriptList_stays fun n hn => h n (by simp [children, hn]))
    have hinner : Stays 0 ("new " ++ cls.script ++ Emit.parens (scriptList args)) :=
      .append (.append (.plain rfl) (h cls (by simp [children]))) hargs
    simpa [script, Emit.parens, Emit.join, Stays] using
      Stays.parens (List.forall_mem_singleton.2 hinner)
  | index base key =>
    rcases key with _ | key
    · exact .empty
    · have hkey := Stays.brackets (List.forall_mem_singleton.2 (h key (by simp [children])))
      simpa [script, Emit.join, Stays] using (h base (by simp [children])).append hkey
  | member base label =>
    have hlabel := scriptMember_stays (hspelled label (by simp [children]))
    exact ((h base (by simp [children])).append (.plain rfl)).append hlabel
  | assign left right | addAssign left right | concat left right =>
    exact ((h left (by simp [children])).append (.plain rfl)).append (h right (by simp [children]))
  | arrowFunction params body =>
    have hparams : Stays 0 (Emit.parens (scriptList params)) :=
      .parens (scriptList_stays fun n hn => h n (by simp [children, hn]))
    exact (hparams.append (.plain rfl)).append (h body (by simp [children]))
  | closure params uses body =>
    have hparams : Stays 0 (Emit.parens (scriptList params)) :=
      .parens (scriptList_stays fun n hn => h n (by simp [children, hn]))
    exact (Stays.append (.plain rfl) hparams).append
      (.braces (scriptList_stays fun n hn => h n (by simp [children, hn])))
  | array slots => exact .brackets (scriptSlots_stays h)
  | arrayItem key value =>
    have hvalue := h value (by simp [children])
    rcases key with _ | key
    · exact hvalue
    · exact ((h key (by simp [children])).append (.plain rfl)).append hvalue
  | var => exact .word htame.1
  | integer => exact Script.integer_stays _
  | float => exact Script.float_stays _
  | string value s => exact Script.quote_stays (htame.2 value s rfl)
  | identifier => exact Script.rename_stays htame.1
  | name => exact scriptName_stays htame.1
  | other => exact .empty

/-- Reading the script of a tree changes nothing, as far as it is spelled with words and has
    strings without backslashes. -/
theorem script_stays (n : Node) (h : ∀ m : Node, m.Occurs n → m.IsTame) : Stays 0 n.script := by
  induction n using Node.induction with
  | step n ih =>
    refine script_stays_of_children (h n .here) (fun child hc => (h child (.of_mem hc)).1) ?_
    exact fun child hc => ih child hc fun m hm => h m (.inside hc hm)

end Node

namespace Parse.Derives

/-- What stands in the slots of a derived array are items. -/
theorem item_of_mem_slots {W : List Char → Prop} {form : Form} {n : Node} (h : Derives W form n)
    {slots : List (Option Node)} {s : Span} (hn : n = .array slots s) {slot : Option Node}
    (hslot : slot ∈ slots) {i : Node} (hi : i ∈ slot) : ∃ levels, Derives W (.item levels) i := by
  induction h with
  | programStatement _ _ ih | topStatement _ ih | ofOperation _ ih | ofAccess _ ih | ofPrimary _ ih
  | ofVariable _ ih | group _ ih | memberByLabel _ ih | memberByVariable _ ih
  | memberByExpression _ ih | constructedByName _ ih | constructedByVariable _ ih
  | constructedByExpression _ ih | part _ ih => exact ih hn
  | array hslots =>
    cases hn
    exact ⟨_, hslots slot hslot i hi⟩
  | _ => cases hn

theorem item_ne_empty {levels : Nat} {i : Node} (h : Derives (isWord ·) (.item levels) i)
    (hc : i.survey.complete) : i.script ≠ "" := by
  have hbegins : ∃ opening, BeginsAs i.script opening := by
    cases h with
    | @item _ key value _ hkey hvalue =>
      cases key with
      | none => exact ⟨_, hvalue.begins trivial hc⟩
      | some key =>
        simp only [Node.survey, Survey.complete_deeper, Survey.complete_andThen,
          Bool.and_eq_true] at hc
        simp only [Node.script]
        exact ⟨_, ((hkey key rfl).begins trivial hc.2).append.append⟩
    | other hform => exact hform.elim
  obtain ⟨_, c, hfirst, -⟩ := hbegins
  intro hempty
  rw [hempty] at hfirst
  cases hfirst

end Parse.Derives

theorem Node.scriptSlots_ne_empty {slots : List (Option Node)}
    (h : ∀ slot ∈ slots, ∀ i ∈ slot, i.script ≠ "") : ∀ x ∈ scriptSlots slots, x ≠ "" := by
  rw [scriptSlots_eq_map, List.forall_mem_map]
  rintro (_ | i) hi
  · decide
  · exact h _ hi i rfl

/-- An array of a parsed program that has a script, and no backslash in a string anywhere in it,
    is written between brackets, with as many elements as it has slots. The offsets of the
    program have to fit into spans, so that its names are words. -/
theorem array_elements {text : String} {slots : List (Option Node)} {s : Span} {script : String}
    {p q : Printer} (hsize : text.utf8ByteSize ≤ Span.limit)
    (hparsed : Parse.IsParsed text (.array slots s))
    (hstrings : ∀ value s', (Node.string value s').Occurs (.array slots s) → '\\' ∉ value.toList)
    (hemit : Emit.node (.array slots s) p = .ok script q) :
    ∃ inner, script.toList = '[' :: (inner ++ [']']) ∧ Script.elements inner = slots.length := by
  have hderives := hparsed.derives hsize
  have hscript := (Emit.node_describes _).eq_of_ok hemit
  have hsucceeds := Survey.succeeds_deeper ((Emit.node_describes _).succeeds_of_ok hemit)
  have hstays : ∀ x ∈ Node.scriptSlots slots, Stays 0 x := by
    refine Node.scriptSlots_stays fun i hi => i.script_stays fun m hm => ?_
    have hm : m.Occurs (.array slots s) := .inside hi hm
    have hspelled := (hderives.of_occurs hm).isSpelled
    exact ⟨hspelled, fun value s' hvalue => hstrings value s' (hvalue ▸ hm)⟩
  have hne : ∀ x ∈ Node.scriptSlots slots, x ≠ "" := by
    refine Node.scriptSlots_ne_empty fun slot hslot i hi => ?_
    obtain ⟨levels, hitem⟩ := hderives.item_of_mem_slots rfl hslot hi
    have hi : i ∈ slots.filterMap id := List.mem_filterMap.2 ⟨slot, hslot, hi⟩
    exact hitem.item_ne_empty (Node.succeeds_surveySlots.1 hsucceeds i hi).1
  refine ⟨(Emit.join ", " (Node.scriptSlots slots)).toList, ?_, ?_⟩
  · simp [hscript, Node.script]
  · rw [Script.elements_join hstays hne, Node.scriptSlots_eq_map, List.length_map]

/-- An array of three slots, the second one empty and a comma in the first one. -/
def isSparseArray : List Node → Bool
  | [.expression (.array [some (.arrayItem none (.string "a,b" _) _), none,
      some (.arrayItem none (.string "c" _) _)] _) _] => true
  | _ => false

theorem array_elements_of_sparse :
    "<?php ['a,b', , 'c'];".utf8ByteSize ≤ Span.limit ∧
    ∃ slots s script inner, Parse.IsParsed "<?php ['a,b', , 'c'];" (.array slots s) ∧
      slots.length = 3 ∧
      Emit.node (.array slots s) {} = .ok script {} ∧ script = "['a,b', null, 'c']" ∧
      script.toList = '[' :: (inner ++ [']']) ∧ Script.elements inner = slots.length := by
  have hcheck : (Parse.source "<?php ['a,b', , 'c'];").toOption.any isSparseArray := by
    decide +kernel
  obtain ⟨nodes, hsource, hshape⟩ := Parse.exists_of_any hcheck
  unfold isSparseArray at hshape
  split at hshape
  · next s₁ s₂ s₃ s₄ s₅ s₆ =>
    have hparsed := Parse.IsParsed.of_expression hsource
    have hstrings value s' (ho : (Node.string value s').Occurs (.array
        [some (.arrayItem none (.string "a,b" s₁) s₂), none,
          some (.arrayItem none (.string "c" s₃) s₄)] s₅)) : '\\' ∉ value.toList := by
      rcases ho with _ | ⟨hitem, ho⟩
      have hitem : _ ∈ [Node.arrayItem none (.string "a,b" s₁) s₂,
        .arrayItem none (.string "c" s₃) s₄] := hitem
      rcases List.mem_pair.1 hitem with rfl | rfl <;> rcases ho with _ | ⟨hvalue, ho⟩ <;>
        cases List.mem_singleton.1 hvalue <;> rcases ho with _ | ⟨hnone, -⟩
      · decide
      · cases hnone
      · decide
      · cases hnone
    have hemit : Emit.node (.array
        [some (.arrayItem none (.string "a,b" s₁) s₂), none,
          some (.arrayItem none (.string "c" s₃) s₄)] s₅) {} = .ok "['a,b', null, 'c']" {} := rfl
    have hsize : "<?php ['a,b', , 'c'];".utf8ByteSize ≤ Span.limit := by decide +kernel
    obtain ⟨inner, hinner, helements⟩ := array_elements hsize hparsed hstrings hemit
    exact ⟨hsize, _, _, _, inner, hparsed, rfl, hemit, rfl, hinner, helements⟩
  · cases hshape

/-- Plain text and an array of one variable, whose name is in the plain text. -/
theorem scan_farArray {n : Nat}
    (hn : Text.byteLength "_1,".toList + (openTag.length + n) = Span.limit + 1) :
    Token.scan (Token.farText "_1,".toList n "[$v];".toList) = .ok [⟨.inlineHtml, ⟨0, 3⟩, "_1,"⟩,
      ⟨.symbol .openBracket, ⟨0, 1⟩, "_"⟩, ⟨.varName, ⟨1, 3⟩, "1,"⟩,
      ⟨.symbol .closeBracket, ⟨3, 4⟩, "<"⟩, ⟨.symbol .semicolon, ⟨4, 5⟩, "?"⟩,
      ⟨.endOfFile, ⟨5, 5⟩, ""⟩] := by
  have hcode : Token.Scans .code (Span.limit + 1) "[$v];".toList
      [.wide (.symbol .openBracket) (Span.limit + 1) "[".toList,
        .wide .varName (Span.limit + 1 + 1) "$v".toList,
        .wide (.symbol .closeBracket) (Span.limit + 1 + 3) "]".toList,
        .wide (.symbol .semicolon) (Span.limit + 1 + 4) ";".toList] :=
    .cut "[".toList "$v];".toList rfl (by decide) <|
      .cut "$v".toList "];".toList rfl (by decide) <|
      .cut "]".toList ";".toList rfl (by decide) <| .cut ";".toList [] rfl (by decide) .done
  have hsource : (Token.farText "_1,".toList n "[$v];".toList).toList =
      "_1,".toList ++ (openTag ++ (List.replicate n ' ' ++ "[$v];".toList)) :=
    String.toList_ofList
  have hopening : Token.narrow (Token.farText "_1,".toList n "[$v];".toList)
      (.wide (.symbol .openBracket) (Span.limit + 1) "[".toList) =
        ⟨.symbol .openBracket, ⟨0, 1⟩, "_"⟩ :=
    Token.narrow_far [] "_".toList hsource rfl (by decide)
  have hvar : Token.narrow (Token.farText "_1,".toList n "[$v];".toList)
      (.wide .varName (Span.limit + 1 + 1) "$v".toList) = ⟨.varName, ⟨1, 3⟩, "1,"⟩ :=
    Token.narrow_far "_".toList "1,".toList hsource rfl (by decide)
  have hclosing : Token.narrow (Token.farText "_1,".toList n "[$v];".toList)
      (.wide (.symbol .closeBracket) (Span.limit + 1 + 3) "]".toList) =
        ⟨.symbol .closeBracket, ⟨3, 4⟩, "<"⟩ :=
    Token.narrow_far "_1,".toList "<".toList hsource rfl (by decide)
  have hmark : Token.narrow (Token.farText "_1,".toList n "[$v];".toList)
      (.wide (.symbol .semicolon) (Span.limit + 1 + 4) ";".toList) =
        ⟨.symbol .semicolon, ⟨4, 5⟩, "?"⟩ :=
    Token.narrow_far "_1,<".toList "?".toList hsource rfl (by decide)
  have hhtml : beforeTag ("_1,".toList ++
      (openTag ++ (List.replicate n ' ' ++ "[$v];".toList))) = "_1,".toList := rfl
  rw [Token.scan_farText (by decide) hn hhtml hcode (by simp [Token.wide]), List.map_cons, List.map_cons,
    List.map_cons, List.map_singleton, hopening, hvar, hclosing, hmark]
  rfl

/-- Plain text, and an array of one slot whose variable has a comma for a name. -/
def isCommaArray : List Node → Bool
  | [.other _ _ _, .expression (.array [some (.arrayItem none (.var "," _) _)] _) _] => true
  | _ => false

theorem source_farArray {n : Nat}
    (hn : Text.byteLength "_1,".toList + (openTag.length + n) = Span.limit + 1) :
    (Parse.source (Token.farText "_1,".toList n "[$v];".toList)).toOption.any isCommaArray := by
  rw [Parse.source, Parse.start, scan_farArray hn]
  decide +kernel

/-- In a text beyond the largest offset a name can hold a comma. -/
theorem not_always_elements :
    ¬∀ (text : String) (slots : List (Option Node)) (s : Span) (script : String) (p q : Printer),
      Parse.IsParsed text (.array slots s) →
      (∀ value s', (Node.string value s').Occurs (.array slots s) → '\\' ∉ value.toList) →
      Emit.node (.array slots s) p = .ok script q →
      ∃ inner, script.toList = '[' :: (inner ++ [']']) ∧ Script.elements inner = slots.length := by
  intro h
  obtain ⟨n, hn⟩ : ∃ n, Text.byteLength "_1,".toList + (openTag.length + n) = Span.limit + 1 :=
    ⟨Span.limit - 7, by decide⟩
  obtain ⟨nodes, hsource, hshape⟩ := Parse.exists_of_any (source_farArray hn)
  unfold isCommaArray at hshape
  split at hshape
  · next s₁ s₂ s₃ s₄ =>
    have hparsed : Parse.IsParsed (Token.farText "_1,".toList n "[$v];".toList)
        (.array [some (.arrayItem none (.var "," s₁) s₂)] s₃) :=
      ⟨_, _, hsource, List.mem_cons_of_mem _ List.mem_cons_self, .inside List.mem_cons_self .here⟩
    have hstrings value s' (ho : (Node.string value s').Occurs
        (.array [some (.arrayItem none (.var "," s₁) s₂)] s₃)) : '\\' ∉ value.toList := by
      rcases ho with _ | ⟨hitem, ho⟩
      cases List.mem_singleton.1 hitem
      rcases ho with _ | ⟨hvar, ho⟩
      cases List.mem_singleton.1 hvar
      rcases ho with _ | ⟨hnone, -⟩
      cases hnone
    have hemit : Emit.node (.array [some (.arrayItem none (.var "," s₁) s₂)] s₃) {} =
        .ok "[,]" {} := rfl
    obtain ⟨inner, hinner, helements⟩ := h _ _ _ _ _ _ hparsed hstrings hemit
    have hcomma : inner = [','] := List.append_cancel_right (List.cons.inj hinner).2.symm
    rw [hcomma, List.length_singleton] at helements
    exact absurd helements (by decide)
  · cases hshape

end PhpScript
