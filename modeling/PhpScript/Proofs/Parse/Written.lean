import PhpScript.Proofs.Node.Bare
import PhpScript.Proofs.Parse.Reading

/-!
# Written expressions

`Term` is an expression before it is written: a variable, a literal, an array,
an access, a call, an assignment, a concatenation or a function.

* `Term.written` is its text, in which every operand, base and assigned value is
  in parentheses;
* `Term.node` is the tree that is meant by it, without places;
* `Term.levels` is how many levels its parts go deeper than itself, which is what
  decides whether it can be read.

The names in a term are as the name rule asks, and only a place can be assigned
to, so each term can be written.
-/

namespace PhpScript

open Parse

/-! ## Pieces -/

namespace Piece

/-- The piece of a symbol. -/
abbrev mark (s : Symbol) (h : s.isPlain := by decide) : Piece := .sign (.symbol s h)

/-- Pieces in parentheses. -/
def paren (ps : List Piece) : List Piece := mark .openParen :: (ps ++ [mark .closeParen])

/-- Pieces with commas between them. -/
def commaList : List (List Piece) → List Piece
  | [] => []
  | ps :: rest => ps ++ rest.flatMap fun qs => mark .comma :: blank :: qs

/-- Variables in parentheses. -/
def varList (names : List Word) : List Piece :=
  paren (commaList (names.map fun w => [.sign (.var w)]))

/-- The variables that a closure binds, if it binds any. -/
def bindings : List Word → List Piece
  | [] => []
  | w :: uses => blank :: .sign (.keyword .useKw) :: blank :: varList (w :: uses)

/-- The tokens of pieces, without their places. -/
def words (ps : List Piece) : List Sig := (ps.filterMap sign?).map Sign.sig

@[simp] theorem words_nil : words [] = [] := rfl

@[simp] theorem words_blank (ps : List Piece) : words (blank :: ps) = words ps := rfl

@[simp] theorem words_sign (s : Sign) (ps : List Piece) :
    words (.sign s :: ps) = s.sig :: words ps := rfl

@[simp] theorem words_append (ps qs : List Piece) : words (ps ++ qs) = words ps ++ words qs := by
  simp [words]

@[simp] theorem words_flatten (pss : List (List Piece)) :
    words pss.flatten = pss.flatMap words := by
  induction pss with
  | nil => rfl
  | cons ps pss ih => rw [List.flatten_cons, words_append, ih, List.flatMap_cons]

@[simp] theorem words_paren (ps : List Piece) :
    words (paren ps) =
      (.symbol .openParen, "(") :: (words ps ++ [(.symbol .closeParen, ")")]) := by
  rw [paren, words_sign, words_append]
  rfl

theorem words_commaList {f : α → List Piece} (xs : List α) :
    words (commaList (xs.map f)) = Reads.commas (fun x => words (f x)) xs := by
  cases xs with
  | nil => rfl
  | cons x xs =>
    rw [List.map_cons, commaList, words_append, Reads.commas, List.flatMap_map]
    congr 1
    induction xs with
    | nil => rfl
    | cons y ys ih =>
      rw [List.flatMap_cons, List.flatMap_cons, words_append, ih]
      rfl

end Piece

namespace Written

/-- A word that is no keyword. -/
structure Name extends Word where
  isIdentifier : toWord.kind = .identifier

mutual

/-- An expression that is still to be written. -/
inductive Term
  | place (p : Place)
  | integer (value : Nat) (isInteger : value ≤ Literal.maxInteger)
  | string (value : String)
  | constant (name : Name)
  | array (slots : List Slot)
  | methodCall (target : Term) (label : Word) (args : List Term)
  /-- `name(args)` -/
  | call (name : Name) (args : List Term)
  /-- `(callee)(args)` -/
  | callTerm (callee : Term) (args : List Term)
  | construct (cls : Name) (args : List Term)
  | assign (target : Place) (value : Term)
  | addAssign (target : Place) (value : Term)
  | concat (left right : Term)
  | arrowFunction (params : List Word) (body : Term)
  | closure (params uses : List Word) (body : List Line)

/-- What can be assigned to. -/
inductive Place
  | var (name : Word)
  | index (base key : Term)
  | member (base : Term) (label : Word)

/-- A slot of an array. -/
inductive Slot
  | empty
  | item (value : Term)
  | keyed (key value : Term)

/-- A statement of a closure. -/
inductive Line
  | expression (expr : Term)
  | returns (value : Term)

end

/-! ## Text -/

open Piece

mutual

/-- How a term is written, with every operand in parentheses. -/
@[simp] def Term.pieces : Term → List Piece
  | .place p => p.pieces
  | .integer value _ => [.sign (.integer value)]
  | .string value => [.sign (.string value)]
  | .constant name => [.sign (.word name.toWord)]
  | .array slots =>
    mark .openBracket :: ((slotPieces slots).flatten ++ [mark .closeBracket])
  | .methodCall target label args =>
    paren target.pieces ++ mark .arrow :: .sign (.word label) :: paren (commaList (argPieces args))
  | .call name args => .sign (.word name.toWord) :: paren (commaList (argPieces args))
  | .callTerm callee args => paren callee.pieces ++ paren (commaList (argPieces args))
  | .construct cls args =>
    .sign (.keyword .newKw) :: blank :: .sign (.word cls.toWord) ::
      paren (commaList (argPieces args))
  | .assign target value => target.pieces ++ blank :: mark .equals :: blank :: paren value.pieces
  | .addAssign target value =>
    target.pieces ++ blank :: mark .plusEquals :: blank :: paren value.pieces
  | .concat left right =>
    paren left.pieces ++ blank :: mark .dot :: blank :: paren right.pieces
  | .arrowFunction params body =>
    .sign (.keyword .fnKw) :: (varList params ++ blank :: mark .doubleArrow :: blank ::
      body.pieces)
  | .closure params uses body =>
    .sign (.keyword .functionKw) :: (varList params ++ (bindings uses ++ blank ::
      mark .openBrace :: ((linePieces body).flatten ++ [blank, mark .closeBrace])))

/-- How a place is written. -/
@[simp] def Place.pieces : Place → List Piece
  | .var name => [.sign (.var name)]
  | .index base key =>
    paren base.pieces ++ mark .openBracket :: (key.pieces ++ [mark .closeBracket])
  | .member base label => paren base.pieces ++ [mark .arrow, .sign (.word label)]

/-- How the arguments of a call are written. -/
def argPieces : List Term → List (List Piece)
  | [] => []
  | a :: args => a.pieces :: argPieces args

/-- How a slot of an array is written, with the comma after it. -/
@[simp] def Slot.pieces : Slot → List Piece
  | .empty => [mark .comma]
  | .item value => value.pieces ++ [mark .comma]
  | .keyed key value =>
    paren key.pieces ++ blank :: mark .doubleArrow :: blank :: (paren value.pieces ++ [mark .comma])

/-- How the slots of an array are written. -/
def slotPieces : List Slot → List (List Piece)
  | [] => []
  | slot :: slots => slot.pieces :: slotPieces slots

/-- How a statement of a closure is written. -/
@[simp] def Line.pieces : Line → List Piece
  | .expression expr => blank :: (expr.pieces ++ [mark .semicolon])
  | .returns value =>
    blank :: .sign (.keyword .returnKw) :: blank :: (value.pieces ++ [mark .semicolon])

/-- How the statements of a closure are written. -/
def linePieces : List Line → List (List Piece)
  | [] => []
  | line :: lines => line.pieces :: linePieces lines

end

/-- The text of a term. -/
def Term.written (t : Term) : String := String.ofList (t.pieces.flatMap Piece.text)

example : (Term.concat (.place (.member (.place (.var ⟨"a", rfl⟩)) ⟨"b", rfl⟩))
    (.array [.empty, .item (.string "it's")])).written = "(($a)->b) . ([,'it\\'s',])" := by
  decide +kernel

/-! ## Trees -/

/-- The node of a name. -/
def Name.node (name : Name) : Node := .name [name.text] false .unknown

/-- The node of a variable. -/
def varNode (w : Word) : Node := .var w.text .unknown

/-- The node of a parameter. -/
def paramNode (w : Word) : Node := .parameter (varNode w) .unknown

mutual

/-- The tree of a term. -/
@[simp] def Term.node : Term → Node
  | .place p => p.node
  | .integer value _ => .integer value .unknown
  | .string value => .string value .unknown
  | .constant name => .constant name.node .unknown
  | .array slots => .array (slotNodes slots) .unknown
  | .methodCall target label args =>
    .methodCall target.node (.identifier label.text .unknown) (argNodes args) .unknown
  | .call name args => .functionCall name.node (argNodes args) .unknown
  | .callTerm callee args => .functionCall callee.node (argNodes args) .unknown
  | .construct cls args => .construct cls.node (argNodes args) .unknown
  | .assign target value => .assign target.node value.node .unknown
  | .addAssign target value => .addAssign target.node value.node .unknown
  | .concat left right => .concat left.node right.node .unknown
  | .arrowFunction params body => .arrowFunction (params.map paramNode) body.node .unknown
  | .closure params uses body =>
    .closure (params.map paramNode) (uses.map varNode) (lineNodes body) .unknown

/-- The tree of a place. -/
@[simp] def Place.node : Place → Node
  | .var name => varNode name
  | .index base key => .index base.node (some key.node) .unknown
  | .member base label => .member base.node (.identifier label.text .unknown) .unknown

/-- The trees of the arguments of a call. -/
def argNodes : List Term → List Node
  | [] => []
  | a :: args => .argument a.node .unknown :: argNodes args

/-- The tree of a slot of an array. -/
@[simp] def Slot.node : Slot → Option Node
  | .empty => none
  | .item value => some (.arrayItem none value.node .unknown)
  | .keyed key value => some (.arrayItem (some key.node) value.node .unknown)

/-- The trees of the slots of an array. -/
def slotNodes : List Slot → List (Option Node)
  | [] => []
  | slot :: slots => slot.node :: slotNodes slots

/-- The tree of a statement of a closure. -/
@[simp] def Line.node : Line → Node
  | .expression expr => .expression expr.node .unknown
  | .returns value => .returns (some value.node) .unknown

/-- The trees of the statements of a closure. -/
def lineNodes : List Line → List Node
  | [] => []
  | line :: lines => line.node :: lineNodes lines

end

/-! ## Levels -/

mutual

/-- How many levels the parts of a term go deeper than the term itself. -/
@[simp] def Term.levels : Term → Nat
  | .place p => p.levels
  | .integer .. | .string _ | .constant _ => 0
  | .array slots => slotLevels slots
  | .methodCall target _ args => max (target.levels + 1) (argLevels args + 1)
  | .call _ args => argLevels args + 1
  | .callTerm callee args => max (callee.levels + 1) (argLevels args + 1)
  | .construct _ args => argLevels args
  | .assign target value | .addAssign target value => max target.levels (value.levels + 2)
  | .concat left right => max (left.levels + 1) (right.levels + 2)
  | .arrowFunction _ body => body.levels + 1
  | .closure _ _ body => lineLevels body

/-- `Term.levels` for a place. -/
@[simp] def Place.levels : Place → Nat
  | .var _ => 0
  | .index base key => max (base.levels + 1) (key.levels + 2)
  | .member base _ => base.levels + 1

/-- The levels that the arguments of a call go deeper. -/
def argLevels : List Term → Nat
  | [] => 0
  | a :: args => max (a.levels + 1) (argLevels args)

/-- `Term.levels` for a slot of an array. -/
@[simp] def Slot.levels : Slot → Nat
  | .empty => 0
  | .item value => value.levels + 1
  | .keyed key value => max (key.levels + 2) (value.levels + 2)

/-- The levels that the slots of an array go deeper. -/
def slotLevels : List Slot → Nat
  | [] => 0
  | slot :: slots => max slot.levels (slotLevels slots)

/-- `Term.levels` for a statement of a closure. -/
@[simp] def Line.levels : Line → Nat
  | .expression expr | .returns expr => expr.levels + 2

/-- The levels that the statements of a closure go deeper. -/
def lineLevels : List Line → Nat
  | [] => 0
  | line :: lines => max line.levels (lineLevels lines)

end

/-! ## Lists of parts -/

@[simp] theorem argPieces_eq_map (args : List Term) : argPieces args = args.map Term.pieces :=
  eq_map_of_cons (by rw [argPieces]) (fun _ _ => by rw [argPieces]) args

@[simp] theorem slotPieces_eq_map (slots : List Slot) : slotPieces slots = slots.map Slot.pieces :=
  eq_map_of_cons (by rw [slotPieces]) (fun _ _ => by rw [slotPieces]) slots

@[simp] theorem linePieces_eq_map (lines : List Line) : linePieces lines = lines.map Line.pieces :=
  eq_map_of_cons (by rw [linePieces]) (fun _ _ => by rw [linePieces]) lines

@[simp] theorem argNodes_eq_map (args : List Term) :
    argNodes args = args.map fun a => .argument a.node .unknown :=
  eq_map_of_cons (by rw [argNodes]) (fun _ _ => by rw [argNodes]) args

@[simp] theorem slotNodes_eq_map (slots : List Slot) : slotNodes slots = slots.map Slot.node :=
  eq_map_of_cons (by rw [slotNodes]) (fun _ _ => by rw [slotNodes]) slots

@[simp] theorem lineNodes_eq_map (lines : List Line) : lineNodes lines = lines.map Line.node :=
  eq_map_of_cons (by rw [lineNodes]) (fun _ _ => by rw [lineNodes]) lines

/-- The levels of a list go as deep as those of the deepest of its items. -/
theorem le_iff_of_cons {f : List α → Nat} {g : α → Nat} (nil : f [] = 0)
    (cons : ∀ x xs, f (x :: xs) = max (g x) (f xs)) {xs : List α} {L : Nat} :
    f xs ≤ L ↔ ∀ x ∈ xs, g x ≤ L := by
  induction xs with
  | nil => simp [nil]
  | cons x xs ih => rw [cons, Nat.max_le, ih, List.forall_mem_cons]

theorem argLevels_le {args : List Term} {L : Nat} :
    argLevels args ≤ L ↔ ∀ a ∈ args, a.levels + 1 ≤ L :=
  le_iff_of_cons (by rw [argLevels]) fun _ _ => by rw [argLevels]

theorem slotLevels_le {slots : List Slot} {L : Nat} :
    slotLevels slots ≤ L ↔ ∀ slot ∈ slots, slot.levels ≤ L :=
  le_iff_of_cons (by rw [slotLevels]) fun _ _ => by rw [slotLevels]

theorem lineLevels_le {lines : List Line} {L : Nat} :
    lineLevels lines ≤ L ↔ ∀ line ∈ lines, line.levels ≤ L :=
  le_iff_of_cons (by rw [lineLevels]) fun _ _ => by rw [lineLevels]

/-! ## Induction -/

/-- The terms in a place. -/
def Place.parts : Place → List Term
  | .var _ => []
  | .index base key => [base, key]
  | .member base _ => [base]

/-- The terms in a slot. -/
def Slot.parts : Slot → List Term
  | .empty => []
  | .item value => [value]
  | .keyed key value => [key, value]

/-- The term in a statement. -/
def Line.part : Line → Term
  | .expression expr | .returns expr => expr

/-- The terms right below a term. -/
def Term.parts : Term → List Term
  | .place p => p.parts
  | .integer .. | .string _ | .constant _ => []
  | .array slots => slots.flatMap Slot.parts
  | .methodCall target _ args => target :: args
  | .call _ args | .construct _ args => args
  | .callTerm callee args => callee :: args
  | .assign target value | .addAssign target value => value :: target.parts
  | .concat left right => [left, right]
  | .arrowFunction _ body => [body]
  | .closure _ _ body => body.map Line.part

theorem Place.sizeOf_lt_of_mem {p : Place} {x : Term} (h : x ∈ p.parts) : sizeOf x < sizeOf p := by
  cases p with
  | var _ => cases h
  | index base key =>
    rcases List.mem_pair.1 h with rfl | rfl <;> simp +arith
  | member base label =>
    rw [List.mem_singleton.1 h]
    simp +arith

theorem Slot.sizeOf_lt_of_mem {slot : Slot} {x : Term} (h : x ∈ slot.parts) :
    sizeOf x < sizeOf slot := by
  cases slot with
  | empty => cases h
  | item value =>
    rw [List.mem_singleton.1 h]
    simp +arith
  | keyed key value =>
    rcases List.mem_pair.1 h with rfl | rfl <;> simp +arith

theorem Line.sizeOf_part_lt (line : Line) : sizeOf line.part < sizeOf line := by
  cases line <;> simp +arith [Line.part]

theorem Term.sizeOf_lt_of_mem {t x : Term} (h : x ∈ t.parts) : sizeOf x < sizeOf t := by
  cases t with
  | integer | string | constant => cases h
  | place p =>
    have := Place.sizeOf_lt_of_mem h
    simp only [place.sizeOf_spec]
    omega
  | array slots =>
    obtain ⟨slot, hslot, hx⟩ := List.mem_flatMap.1 h
    have := List.sizeOf_lt_of_mem hslot
    have := Slot.sizeOf_lt_of_mem hx
    simp only [array.sizeOf_spec]
    omega
  | methodCall target label args | callTerm target args =>
    rcases List.mem_cons.1 h with rfl | hx
    · simp +arith
    · have := List.sizeOf_lt_of_mem hx
      simp only [methodCall.sizeOf_spec, callTerm.sizeOf_spec]
      omega
  | call name args | construct name args =>
    have hx : x ∈ args := h
    have := List.sizeOf_lt_of_mem hx
    simp only [call.sizeOf_spec, construct.sizeOf_spec]
    omega
  | assign target value | addAssign target value =>
    rcases List.mem_cons.1 h with rfl | hx
    · simp +arith
    · have := Place.sizeOf_lt_of_mem hx
      simp only [assign.sizeOf_spec, addAssign.sizeOf_spec]
      omega
  | concat left right => rcases List.mem_pair.1 h with rfl | rfl <;> simp +arith
  | arrowFunction params body =>
    rw [List.mem_singleton.1 h]
    simp +arith
  | closure params uses body =>
    obtain ⟨line, hline, rfl⟩ := List.mem_map.1 h
    have := List.sizeOf_lt_of_mem hline
    have := line.sizeOf_part_lt
    simp only [closure.sizeOf_spec]
    omega

/-- A property that every term has whose parts have it is a property of all terms. -/
@[elab_as_elim]
theorem Term.induction {motive : Term → Prop}
    (step : ∀ t : Term, (∀ x ∈ t.parts, motive x) → motive t) (t : Term) : motive t :=
  step t fun x _ => x.induction step
termination_by sizeOf t
decreasing_by exact Term.sizeOf_lt_of_mem ‹_›

/-! ## The text is scanned as its signs -/

theorem isChain_cons_of_free {p : Piece} {ps : List Piece} (hp : ∀ q, Fits p q) :
    (p :: ps).IsChain Fits ↔ ps.IsChain Fits := by
  cases ps with
  | nil => simp
  | cons q ps => simp [List.isChain_cons_cons, hp q]

theorem isChain_append_of_gap {p : Piece} {ps qs : List Piece} (hp : p.isGap) :
    (ps ++ p :: qs).IsChain Fits ↔ ps.IsChain Fits ∧ (p :: qs).IsChain Fits := by
  rw [List.isChain_append]
  refine ⟨fun h => ⟨h.1, h.2.1⟩, fun h => ⟨h.1, h.2, ?_⟩⟩
  rintro q - r hr
  cases hr
  cases q with
  | blank => trivial
  | sign s => exact fun _ => hp

theorem isChain_blank {qs : List Piece} :
    (blank :: qs).IsChain Fits ↔ qs.IsChain Fits :=
  isChain_cons_of_free fun _ => trivial

theorem isChain_append_blank {ps qs : List Piece} :
    (ps ++ blank :: qs).IsChain Fits ↔ ps.IsChain Fits ∧ qs.IsChain Fits := by
  rw [isChain_append_of_gap rfl, isChain_blank]

/-- Any sign may stand before a blank. -/
theorem isChain_sign_blank {s : Sign} {qs : List Piece} :
    (.sign s :: blank :: qs).IsChain Fits ↔ qs.IsChain Fits := by
  rw [List.isChain_cons_cons, isChain_blank]
  exact and_iff_right fun _ => rfl

/-- Symbols that end where they end need no gap after them. -/
theorem isChain_mark {s : Symbol} {h : s.isPlain} {qs : List Piece}
    (hs : (Sign.symbol s h).needsGap = false) :
    (mark s h :: qs).IsChain Fits ↔ qs.IsChain Fits :=
  isChain_cons_of_free fun q hgap => absurd (hs ▸ hgap) (by simp)

theorem isChain_append_mark {s : Symbol} {h : s.isPlain} {ps qs : List Piece}
    (hgap : (mark s h).isGap) (hs : (Sign.symbol s h).needsGap = false) :
    (ps ++ mark s h :: qs).IsChain Fits ↔ ps.IsChain Fits ∧ qs.IsChain Fits := by
  rw [isChain_append_of_gap hgap, isChain_mark hs]

theorem isChain_paren_append {ps qs : List Piece} :
    (paren ps ++ qs).IsChain Fits ↔ ps.IsChain Fits ∧ qs.IsChain Fits := by
  rw [paren, List.cons_append, isChain_mark rfl, List.append_assoc, List.singleton_append,
    isChain_append_mark rfl rfl]

theorem isChain_paren {ps : List Piece} : (paren ps).IsChain Fits ↔ ps.IsChain Fits := by
  rw [← List.append_nil (paren ps), isChain_paren_append]
  simp

/-- Any sign may stand before a parenthesis. -/
theorem isChain_sign_paren_append {s : Sign} {ps qs : List Piece} :
    (.sign s :: (paren ps ++ qs)).IsChain Fits ↔ (paren ps ++ qs).IsChain Fits := by
  rw [paren, List.cons_append, List.isChain_cons_cons]
  exact and_iff_right fun _ => rfl

theorem isChain_sign_paren {s : Sign} {ps : List Piece} :
    (.sign s :: paren ps).IsChain Fits ↔ (paren ps).IsChain Fits := by
  rw [paren, List.isChain_cons_cons]
  exact and_iff_right fun _ => rfl

theorem isChain_commaList {pss : List (List Piece)} (h : ∀ ps ∈ pss, ps.IsChain Fits) :
    (commaList pss).IsChain Fits := by
  cases pss with
  | nil => simp [commaList]
  | cons ps pss =>
    -- A comma stands before each item but the first.
    induction pss generalizing ps with
    | nil => simpa [commaList] using h
    | cons qs pss ih =>
      rw [List.forall_mem_cons] at h
      rw [commaList, List.flatMap_cons, List.cons_append, isChain_append_mark rfl rfl]
      exact ⟨h.1, isChain_blank.2 (ih qs h.2)⟩

theorem isChain_varList (names : List Word) : (varList names).IsChain Fits := by
  refine isChain_paren.2 (isChain_commaList fun ps hps => ?_)
  obtain ⟨w, -, rfl⟩ := List.mem_map.1 hps
  exact List.isChain_singleton _

theorem isChain_flatten {pss : List (List Piece)} {qs : List Piece}
    (h : ∀ ps ∈ pss, ∀ qs : List Piece, qs.IsChain Fits → (ps ++ qs).IsChain Fits)
    (hqs : qs.IsChain Fits) : (pss.flatten ++ qs).IsChain Fits := by
  induction pss with
  | nil => exact hqs
  | cons ps pss ih =>
    rw [List.forall_mem_cons] at h
    rw [List.flatten_cons, List.append_assoc]
    exact h.1 _ (ih h.2)

theorem Place.isChain {p : Place} (h : ∀ x ∈ p.parts, x.pieces.IsChain Fits) :
    p.pieces.IsChain Fits := by
  cases p with
  | var name => exact List.isChain_singleton _
  | index base key =>
    rw [Place.parts, List.forall_mem_cons, List.forall_mem_singleton] at h
    rw [Place.pieces, isChain_paren_append, isChain_mark rfl, isChain_append_mark rfl rfl]
    exact ⟨h.1, h.2, List.isChain_nil⟩
  | member base label =>
    rw [Place.parts, List.forall_mem_singleton] at h
    rw [Place.pieces, isChain_paren_append, isChain_mark rfl]
    exact ⟨h, List.isChain_singleton _⟩

theorem Slot.isChain {slot : Slot} (h : ∀ x ∈ slot.parts, x.pieces.IsChain Fits) {qs : List Piece}
    (hqs : qs.IsChain Fits) : (slot.pieces ++ qs).IsChain Fits := by
  cases slot with
  | empty => rwa [Slot.pieces, List.singleton_append, isChain_mark rfl]
  | item value =>
    rw [Slot.parts, List.forall_mem_singleton] at h
    rw [Slot.pieces, List.append_assoc, List.singleton_append, isChain_append_mark rfl rfl]
    exact ⟨h, hqs⟩
  | keyed key value =>
    rw [Slot.parts, List.forall_mem_cons, List.forall_mem_singleton] at h
    rw [Slot.pieces, List.append_assoc, isChain_paren_append]
    simp only [List.cons_append, List.append_assoc]
    rw [isChain_blank, isChain_sign_blank, isChain_paren_append, List.nil_append, isChain_mark rfl]
    exact ⟨h.1, h.2, hqs⟩

theorem Line.isChain {line : Line} (h : line.part.pieces.IsChain Fits) {qs : List Piece}
    (hqs : qs.IsChain Fits) : (line.pieces ++ qs).IsChain Fits := by
  cases line with
  | expression expr =>
    simp only [Line.pieces, List.cons_append, List.append_assoc]
    rw [isChain_blank, List.nil_append, isChain_append_mark rfl rfl]
    exact ⟨h, hqs⟩
  | returns value =>
    simp only [Line.pieces, List.cons_append, List.append_assoc]
    rw [isChain_blank, isChain_sign_blank, List.nil_append, isChain_append_mark rfl rfl]
    exact ⟨h, hqs⟩

theorem isChain_args {args : List Term} (h : ∀ a ∈ args, a.pieces.IsChain Fits) :
    (paren (commaList (argPieces args))).IsChain Fits := by
  refine isChain_paren.2 (isChain_commaList fun ps hps => ?_)
  rw [argPieces_eq_map] at hps
  obtain ⟨a, ha, rfl⟩ := List.mem_map.1 hps
  exact h a ha

theorem isChain_bindings_append (uses : List Word) {qs : List Piece} (hqs : qs.IsChain Fits) :
    (bindings uses ++ blank :: qs).IsChain Fits := by
  cases uses with
  | nil => exact isChain_blank.2 hqs
  | cons w uses =>
    rw [isChain_append_blank]
    refine ⟨?_, hqs⟩
    rw [bindings, isChain_blank, isChain_sign_blank]
    exact isChain_varList _

/-- Every piece of a term is followed by one that does not prolong it. -/
theorem Term.isChain (t : Term) : t.pieces.IsChain Fits := by
  induction t using Term.induction with
  | step t ih =>
  cases t with
  | place p => exact Place.isChain ih
  | integer | string | constant => exact List.isChain_singleton _
  | array slots =>
    rw [Term.pieces, isChain_mark rfl, slotPieces_eq_map]
    refine isChain_flatten (fun ps hps qs hqs => ?_) (List.isChain_singleton _)
    obtain ⟨slot, hslot, rfl⟩ := List.mem_map.1 hps
    exact Slot.isChain (fun x hx => ih x (List.mem_flatMap.2 ⟨slot, hslot, hx⟩)) hqs
  | methodCall target label args =>
    rw [Term.parts, List.forall_mem_cons] at ih
    rw [Term.pieces, isChain_paren_append, isChain_mark rfl, isChain_sign_paren]
    exact ⟨ih.1, isChain_args ih.2⟩
  | call name args =>
    rw [Term.pieces, isChain_sign_paren]
    exact isChain_args ih
  | callTerm callee args =>
    rw [Term.parts, List.forall_mem_cons] at ih
    rw [Term.pieces, isChain_paren_append]
    exact ⟨ih.1, isChain_args ih.2⟩
  | construct cls args =>
    rw [Term.pieces, isChain_sign_blank, isChain_sign_paren]
    exact isChain_args ih
  | assign target value | addAssign target value =>
    rw [Term.parts, List.forall_mem_cons] at ih
    rw [Term.pieces, isChain_append_blank, isChain_sign_blank, isChain_paren]
    exact ⟨Place.isChain ih.2, ih.1⟩
  | concat left right =>
    rw [Term.parts, List.forall_mem_cons, List.forall_mem_singleton] at ih
    rw [Term.pieces, isChain_paren_append, isChain_blank, isChain_sign_blank, isChain_paren]
    exact ih
  | arrowFunction params body =>
    rw [Term.parts, List.forall_mem_singleton] at ih
    rw [Term.pieces, varList, isChain_sign_paren_append, isChain_append_blank, isChain_sign_blank]
    exact ⟨isChain_varList params, ih⟩
  | closure params uses body =>
    rw [Term.pieces, varList, isChain_sign_paren_append, isChain_paren_append]
    refine ⟨isChain_paren.1 (isChain_varList params), isChain_bindings_append uses ?_⟩
    rw [isChain_mark rfl, linePieces_eq_map]
    refine isChain_flatten (fun ps hps qs hqs => ?_) (isChain_blank.2 (List.isChain_singleton _))
    obtain ⟨line, hline, rfl⟩ := List.mem_map.1 hps
    exact Line.isChain (ih _ (List.mem_map_of_mem hline)) hqs

/-! ## How a term begins -/

/-- The tokens of a term, without their places. -/
abbrev Term.words (t : Term) : List Sig := Piece.words t.pieces

/-- Whether a token can begin a term, or is a string in any quotes. -/
def beginsTerm : TokenKind → Bool
  | .varName | .integer | .singleQuoted | .doubleQuoted | .identifier | .symbol .openBracket
  | .symbol .openParen | .keyword .newKw | .keyword .fnKw | .keyword .functionKw => true
  | _ => false

theorem Place.firstKind_words (p : Place) (k : TokenKind) :
    firstKind (words p.pieces) k = .varName ∨
      firstKind (words p.pieces) k = .symbol .openParen := by
  cases p with
  | var name => exact .inl rfl
  | index base key => exact .inr rfl
  | member base label => exact .inr rfl

theorem Term.begins (t : Term) (k : TokenKind) : beginsTerm (firstKind t.words k) := by
  cases t with
  | place p => rcases p.firstKind_words k with h | h <;> rw [Term.words, Term.pieces, h] <;> rfl
  | constant name | call name args =>
    change beginsTerm name.kind
    rw [name.isIdentifier]
    rfl
  | assign target value | addAssign target value =>
    rw [Term.words, Term.pieces, words_append, firstKind_append]
    rcases target.firstKind_words _ with h | h <;> rw [h] <;> rfl
  | _ => rfl

theorem Term.words_ne_nil (t : Term) : t.words ≠ [] := by
  intro h
  have := t.begins .endOfFile
  rw [h] at this
  cases this

/-- A term that begins with the keyword of a closure is one. -/
theorem Term.firstKind_tail (t : Term) {k : TokenKind}
    (h : firstKind t.words k = .keyword .functionKw) (next : TokenKind) :
    firstKind t.words.tail next = .symbol .openParen := by
  cases t with
  | closure params uses body => rfl
  | place p => rcases p.firstKind_words k with hp | hp <;> cases hp.symm.trans h
  | constant name | call name args => cases name.isIdentifier.symm.trans h
  | assign target value | addAssign target value =>
    rw [Term.words, Term.pieces, words_append, firstKind_append] at h
    rcases target.firstKind_words _ with hp | hp <;> cases hp.symm.trans h
  | _ => cases h

end Written

end PhpScript
