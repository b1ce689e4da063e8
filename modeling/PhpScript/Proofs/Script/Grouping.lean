import Mathlib.Data.List.Forall2
import PhpScript.Proofs.Node.Bare
import PhpScript.Proofs.Parse.Occurrence
import PhpScript.Proofs.Script.Outcome

/-!
# Grouping

A tree says how its operands are grouped, and its script has no parentheses to
say the same. This is about the expressions made of variables, operators, arrow
functions, accesses and method calls, without their spans (`Expr`).

Around an operand there is what stands before it (`Lead`: an operator with its
left operand, or the parameters of an arrow function) and what stands after it
(`Trail`: an operator with its right operand, an access or a call). Whether the
one or the other is attached first makes two different trees, and one script:

* `Regrouped` relates the expressions that differ in such choices only;
* `Line` is an expression with all such choices forgotten: from left to right,
  what a reader of the script can see;
* `Expr.text_eq_iff`: two expressions have the same script exactly when they are
  regroupings of one another.
-/

namespace PhpScript

/-! ## Expressions -/

/-- An operator between two operands. -/
inductive Operator
  | assign
  | addAssign
  | concat
deriving DecidableEq, Repr

/-- How an operator is written. -/
def Operator.text : Operator → List Char
  | assign => [' ', '=', ' ']
  | addAssign => [' ', '+', '=', ' ']
  | concat => [' ', '+', ' ']

/-- An expression without spans. -/
inductive Expr
  | var (name : String)
  | operation (op : Operator) (left right : Expr)
  | arrow (params : List String) (body : Expr)
  | index (base key : Expr)
  | member (base : Expr) (label : String)
  | call (base : Expr) (label : String) (args : List Expr)

namespace Node

/-- The name of a member, when it is an identifier that keeps its name. -/
def label? : Node → Option String
  | identifier label _ => if label = "__construct" then none else some label
  | _ => none

/-- The name of a parameter. -/
def paramName? : Node → Option String
  | parameter (var label _) _ => some label
  | _ => none

mutual

/-- The expression of a node; none if some node in it is of another kind. -/
def expr? : Node → Option Expr
  | var label _ => some (.var label)
  | assign target value _ => do return .operation .assign (← expr? target) (← expr? value)
  | addAssign target value _ => do return .operation .addAssign (← expr? target) (← expr? value)
  | concat left right _ => do return .operation .concat (← expr? left) (← expr? right)
  | arrowFunction params body _ => do return .arrow (← params.mapM paramName?) (← expr? body)
  | index base (some key) _ => do return .index (← expr? base) (← expr? key)
  | member base label _ => do return .member (← expr? base) (← label.label?)
  | methodCall target label args _ => do
    return .call (← expr? target) (← label.label?) (← argExprs? args)
  | _ => none

/-- The expressions of arguments. -/
def argExprs? : List Node → Option (List Expr)
  | [] => some []
  | argument value _ :: rest => do return (← expr? value) :: (← argExprs? rest)
  | _ :: _ => none

end

end Node

/-- Texts with commas between them. -/
def commas (texts : List (List Char)) : List Char := List.intercalate [',', ' '] texts

namespace Expr

mutual

/-- The script of an expression. -/
def text : Expr → List Char
  | var name => name.toList
  | operation op left right => text left ++ op.text ++ text right
  | arrow params body =>
    '(' :: commas (params.map String.toList) ++ [')', ' ', '=', '>', ' '] ++ text body
  | index base key => text base ++ '[' :: text key ++ [']']
  | member base label => text base ++ '.' :: label.toList
  | call base label args => text base ++ '.' :: label.toList ++ '(' :: commas (texts args) ++ [')']

/-- The scripts of expressions. -/
def texts : List Expr → List (List Char)
  | [] => []
  | first :: rest => text first :: texts rest

end

mutual

/-- The tree of an expression, without places. -/
@[simp] def node : Expr → Node
  | var name => .var name .unknown
  | operation .assign left right => .assign (node left) (node right) .unknown
  | operation .addAssign left right => .addAssign (node left) (node right) .unknown
  | operation .concat left right => .concat (node left) (node right) .unknown
  | arrow params body =>
    .arrowFunction (params.map fun p => .parameter (.var p .unknown) .unknown) (node body) .unknown
  | index base key => .index (node base) (some (node key)) .unknown
  | member base label => .member (node base) (.identifier label .unknown) .unknown
  | call base label args =>
    .methodCall (node base) (.identifier label .unknown) (argNodes args) .unknown

/-- The trees of arguments. -/
@[simp] def argNodes : List Expr → List Node
  | [] => []
  | first :: rest => .argument (node first) .unknown :: argNodes rest

end

mutual

/-- All names in the expression are words. -/
def IsSpelled : Expr → Prop
  | var name => isWord name.toList
  | operation _ left right => IsSpelled left ∧ IsSpelled right
  | arrow params body => (∀ p ∈ params, isWord p.toList) ∧ IsSpelled body
  | index base key => IsSpelled base ∧ IsSpelled key
  | member base label => IsSpelled base ∧ isWord label.toList
  | call base label args => IsSpelled base ∧ isWord label.toList ∧ AreSpelled args

/-- All names in the expressions are words. -/
def AreSpelled : List Expr → Prop
  | [] => True
  | first :: rest => IsSpelled first ∧ AreSpelled rest

end

end Expr

/-! ## Regrouping -/

/-- What stands before an operand. -/
inductive Lead
  | operand (left : Expr) (op : Operator)
  | arrow (params : List String)

/-- What stands after an operand. -/
inductive Trail
  | operand (op : Operator) (right : Expr)
  | index (key : Expr)
  | member (label : String)
  | call (label : String) (args : List Expr)

/-- An operand with what stands before it. -/
def Lead.attach : Lead → Expr → Expr
  | operand left op, e => .operation op left e
  | arrow params, e => .arrow params e

/-- An operand with what stands after it. -/
def Trail.attach : Trail → Expr → Expr
  | operand op right, e => .operation op e right
  | index key, e => .index e key
  | member label, e => .member e label
  | call label args, e => .call e label args

/-- The expressions differ only in the order in which leads and trails are
    attached to operands. -/
inductive Regrouped : Expr → Expr → Prop
  | refl {e} : Regrouped e e
  | symm {e e'} : Regrouped e e' → Regrouped e' e
  | trans {e e' e''} : Regrouped e e' → Regrouped e' e'' → Regrouped e e''
  /-- The regrouping itself. -/
  | swap {e} (before : Lead) (after : Trail) :
      Regrouped (after.attach (before.attach e)) (before.attach (after.attach e))
  -- inside an expression
  | lead {e e'} (before : Lead) : Regrouped e e' → Regrouped (before.attach e) (before.attach e')
  | trail {e e'} (after : Trail) : Regrouped e e' → Regrouped (after.attach e) (after.attach e')
  | key {base k k'} : Regrouped k k' → Regrouped (.index base k) (.index base k')
  | arg {base label a a'} (xs ys : List Expr) : Regrouped a a' →
      Regrouped (.call base label (xs ++ a :: ys)) (.call base label (xs ++ a' :: ys))

/-- How a lead is written. -/
def Lead.text : Lead → List Char
  | operand left op => left.text ++ op.text
  | arrow params => '(' :: commas (params.map String.toList) ++ [')', ' ', '=', '>', ' ']

/-- How a trail is written. -/
def Trail.text : Trail → List Char
  | operand op right => op.text ++ right.text
  | index key => '[' :: key.text ++ [']']
  | member label => '.' :: label.toList
  | call label args => '.' :: label.toList ++ '(' :: commas (Expr.texts args) ++ [')']

theorem Lead.text_attach (l : Lead) (e : Expr) : (l.attach e).text = l.text ++ e.text := by
  cases l <;> simp [attach, text, Expr.text]

theorem Trail.text_attach (t : Trail) (e : Expr) : (t.attach e).text = e.text ++ t.text := by
  cases t <;> simp [attach, text, Expr.text]

theorem Expr.texts_eq_map (es : List Expr) : Expr.texts es = es.map Expr.text := by
  induction es with
  | nil => rfl
  | cons e es ih => rw [Expr.texts, ih, List.map_cons]

/-- Regrouping does not show in the script. -/
theorem Regrouped.text_eq {e e' : Expr} (h : Regrouped e e') : e.text = e'.text := by
  induction h with
  | refl => rfl
  | symm _ ih => exact ih.symm
  | trans _ _ ih₁ ih₂ => exact ih₁.trans ih₂
  | swap before after => simp [Lead.text_attach, Trail.text_attach]
  | lead before _ ih => simp [Lead.text_attach, ih]
  | trail after _ ih => simp [Trail.text_attach, ih]
  | key _ ih => simp [Expr.text, ih]
  | arg xs ys _ ih => simp [Expr.text, Expr.texts_eq_map, ih]

/-- Arguments can be regrouped one by one. -/
theorem Regrouped.args {base : Expr} {label : String} {as bs : List Expr}
    (h : List.Forall₂ Regrouped as bs) : Regrouped (.call base label as) (.call base label bs) := by
  -- The arguments in `xs` are regrouped already.
  suffices ∀ xs, Regrouped (.call base label (xs ++ as)) (.call base label (xs ++ bs)) from this []
  induction h with
  | nil => exact fun _ => .refl
  | @cons _ b _ _ hab _ ih => exact fun xs => (arg xs _ hab).trans (by simpa using ih (xs ++ [b]))

/-! ## Lines -/

mutual

/-- An expression from left to right, up to its end. -/
inductive Line
  | name (label : String) (rest : Tail)
  | arrow (params : List String) (body : Line)

/-- What comes after an operand, up to the end of the expression. -/
inductive Tail
  | done
  | operation (op : Operator) (rest : Line)
  | index (key : Line) (rest : Tail)
  | member (label : String) (rest : Tail)
  | call (label : String) (args : List Line) (rest : Tail)

end

namespace Expr

mutual

/-- An expression and what comes after it as one line. -/
def line : Expr → Tail → Line
  | var label, rest => .name label rest
  | operation op left right, rest => line left (.operation op (line right rest))
  | arrow params body, rest => .arrow params (line body rest)
  | index base key, rest => line base (.index (line key .done) rest)
  | member base label, rest => line base (.member label rest)
  | call base label args, rest => line base (.call label (lines args) rest)

/-- Expressions as lines of their own. -/
def lines : List Expr → List Line
  | [] => []
  | first :: rest => line first .done :: lines rest

end

end Expr

mutual

/-- The expression of a line that groups accesses and calls to the left and
    operators to the right. -/
def Line.expr : Line → Expr
  | .name label rest => rest.after (.var label)
  | .arrow params body => .arrow params body.expr

/-- The expression with the tail after it. -/
def Tail.after : Tail → Expr → Expr
  | .done, e => e
  | .operation op rest, e => .operation op e rest.expr
  | .index key rest, e => rest.after (.index e key.expr)
  | .member label rest, e => rest.after (.member e label)
  | .call label args rest, e => rest.after (.call e label (Line.exprs args))

/-- The expressions of lines. -/
def Line.exprs : List Line → List Expr
  | [] => []
  | first :: rest => first.expr :: Line.exprs rest

end

namespace Tail

theorem after_regrouped {e e' : Expr} (h : Regrouped e e') :
    (t : Tail) → Regrouped (t.after e) (t.after e')
  | .done => h
  | .operation op rest => h.trail (.operand op rest.expr)
  | .index key rest => rest.after_regrouped (h.trail (.index key.expr))
  | .member label rest => rest.after_regrouped (h.trail (.member label))
  | .call label args rest => rest.after_regrouped (h.trail (.call label (Line.exprs args)))

/-- A lead can be attached before or after a whole tail. -/
theorem after_attach (before : Lead) {e : Expr} :
    (t : Tail) → Regrouped (t.after (before.attach e)) (before.attach (t.after e))
  | .done => .refl
  | .operation op rest => .swap before (.operand op rest.expr)
  | .index key rest =>
    (rest.after_regrouped (.swap before (.index key.expr))).trans (rest.after_attach before)
  | .member label rest =>
    (rest.after_regrouped (.swap before (.member label))).trans (rest.after_attach before)
  | .call label args rest =>
    (rest.after_regrouped (.swap before (.call label (Line.exprs args)))).trans
      (rest.after_attach before)

end Tail

namespace Expr

mutual

/-- A line forgets nothing but the grouping. -/
theorem line_regrouped : (e : Expr) → (t : Tail) → Regrouped (e.line t).expr (t.after e)
  | .var _, _ => .refl
  -- The left operand and its operator are attached before the tail.
  | .operation op left right, t =>
    (line_regrouped left _).trans
      ((Regrouped.lead (.operand left op) (line_regrouped right t)).trans
        (t.after_attach (.operand left op)).symm)
  | .arrow params body, t =>
    (Regrouped.lead (.arrow params) (line_regrouped body t)).trans
      (t.after_attach (.arrow params)).symm
  | .index base key, t =>
    (line_regrouped base _).trans (t.after_regrouped (.key (line_regrouped key .done)))
  | .member base _, _ => line_regrouped base _
  | .call base _ args, t =>
    (line_regrouped base _).trans (t.after_regrouped (.args (lines_regrouped args)))

theorem lines_regrouped : (es : List Expr) →
    List.Forall₂ Regrouped (Line.exprs (Expr.lines es)) es
  | [] => .nil
  | first :: rest => .cons (line_regrouped first .done) (lines_regrouped rest)

end

end Expr

/-! ## Reading a line off its text -/

mutual

/-- The script of a line. -/
def Line.text : Line → List Char
  | .name label rest => label.toList ++ rest.text
  | .arrow params body =>
    '(' :: commas (params.map String.toList) ++ ')' :: [' ', '=', '>', ' '] ++ body.text

/-- The script of a tail. -/
def Tail.text : Tail → List Char
  | .done => []
  | .operation op rest => op.text ++ rest.text
  | .index key rest => '[' :: key.text ++ ']' :: rest.text
  | .member label rest => '.' :: label.toList ++ rest.text
  | .call label args rest =>
    '.' :: label.toList ++ '(' :: commas (Line.texts args) ++ ')' :: rest.text

/-- The scripts of lines. -/
def Line.texts : List Line → List (List Char)
  | [] => []
  | first :: rest => first.text :: Line.texts rest

end

mutual

/-- All names in the line are words. -/
def Line.IsSpelled : Line → Prop
  | .name label rest => isWord label.toList ∧ rest.IsSpelled
  | .arrow params body => (∀ p ∈ params, isWord p.toList) ∧ body.IsSpelled

/-- All names in the tail are words. -/
def Tail.IsSpelled : Tail → Prop
  | .done => True
  | .operation _ rest => rest.IsSpelled
  | .index key rest => key.IsSpelled ∧ rest.IsSpelled
  | .member label rest => isWord label.toList ∧ rest.IsSpelled
  | .call label args rest => isWord label.toList ∧ Line.AreSpelled args ∧ rest.IsSpelled

/-- All names in the lines are words. -/
def Line.AreSpelled : List Line → Prop
  | [] => True
  | first :: rest => first.IsSpelled ∧ Line.AreSpelled rest

end

namespace Expr

mutual

theorem text_line : (e : Expr) → (t : Tail) → (e.line t).text = e.text ++ t.text
  | .var _, _ => rfl
  | .operation _ left right, t => by
    simp [line, text, text_line left, text_line right, Tail.text]
  | .arrow _ body, t => by simp [line, text, text_line body, Line.text]
  | .index base key, t => by simp [line, text, text_line base, text_line key, Tail.text]
  | .member base _, t => by simp [line, text, text_line base, Tail.text]
  | .call base _ args, t => by
    simp [line, text, text_line base, texts_lines args, Tail.text]

theorem texts_lines : (es : List Expr) → Line.texts (lines es) = texts es
  | [] => rfl
  | first :: rest => by
    simp [lines, texts, Line.texts, text_line first, Tail.text, texts_lines rest]

end

mutual

theorem isSpelled_line : (e : Expr) → {t : Tail} → e.IsSpelled → t.IsSpelled →
    (e.line t).IsSpelled
  | .var _, _, he, ht => ⟨he, ht⟩
  | .operation _ left right, _, he, ht => isSpelled_line left he.1 (isSpelled_line right he.2 ht)
  | .arrow _ body, _, he, ht => ⟨he.1, isSpelled_line body he.2 ht⟩
  | .index base key, _, he, ht => isSpelled_line base he.1 ⟨isSpelled_line key he.2 trivial, ht⟩
  | .member base _, _, he, ht => isSpelled_line base he.1 ⟨he.2, ht⟩
  | .call base _ args, _, he, ht =>
    isSpelled_line base he.1 ⟨he.2.1, areSpelled_lines args he.2.2, ht⟩

theorem areSpelled_lines : (es : List Expr) → AreSpelled es → Line.AreSpelled (lines es)
  | [], _ => trivial
  | first :: rest, h => ⟨isSpelled_line first h.1 trivial, areSpelled_lines rest h.2⟩

end

end Expr

/-- The text is at its end, or at a mark that closes what it stands in. -/
def Stops (r : List Char) : Prop := ∀ c ∈ r.head?, c = ']' ∨ c = ',' ∨ c = ')'

/-- The text is at its end, or at a mark that does not continue a name. -/
def Breaks (r : List Char) : Prop := ∀ c ∈ r.head?, isNamePart c = false

/-- What `a` is can be told from its text, and where it ends too, if it is one of
    the things that are `ok`. -/
def ReadOff (text : α → List Char) (ok : α → Prop) (a : α) : Prop :=
  ∀ ⦃b r s⦄, ok b → Stops r → Stops s → text a ++ r = text b ++ s → a = b ∧ r = s

theorem Stops.breaks {r : List Char} (h : Stops r) : Breaks r := by
  intro c hc
  rcases h c hc with rfl | rfl | rfl <;> decide

theorem takeWhile_append_of_breaks {w r : List Char} (hw : w.all isNamePart) (hr : Breaks r) :
    (w ++ r).takeWhile isNamePart = w := by
  rw [List.takeWhile_append_of_pos (by simpa using hw)]
  cases r with
  | nil => simp
  | cons c r => simp [hr c rfl]

/-- A name ends where no name can go on. -/
theorem word_append_inj {v w r s : List Char} (hv : isWord v) (hw : isWord w) (hr : Breaks r)
    (hs : Breaks s) (h : v ++ r = w ++ s) : v = w ∧ r = s := by
  have hvw : v = w := by
    rw [← takeWhile_append_of_breaks (all_isNamePart_of_isWord hv) hr, h,
      takeWhile_append_of_breaks (all_isNamePart_of_isWord hw) hs]
  subst hvw
  exact ⟨rfl, List.append_cancel_left h⟩

theorem string_readOff {v : String} (hv : isWord v.toList) :
    ReadOff String.toList (fun w => isWord w.toList) v := by
  intro w r s hw hr hs h
  obtain ⟨hvw, hrs⟩ := word_append_inj hv hw hr.breaks hs.breaks h
  exact ⟨String.toList_inj.1 hvw, hrs⟩

@[simp] theorem commas_nil : commas [] = [] := rfl

@[simp] theorem commas_singleton (t : List Char) : commas [t] = t := List.intercalate_singleton

@[simp] theorem commas_cons_cons (t u : List Char) (ts : List (List Char)) :
    commas (t :: u :: ts) = t ++ ',' :: ' ' :: commas (u :: ts) := by
  simp [commas, List.intercalate_cons_cons]

@[simp] theorem stops_cons {c : Char} {r : List Char} :
    Stops (c :: r) ↔ c = ']' ∨ c = ',' ∨ c = ')' := by
  simp [Stops]

/-- A list in parentheses is read off item by item. -/
theorem commas_append_inj {text : α → List Char} {ok : α → Prop}
    (hopen : ∀ a, ok a → ∃ c rest, text a = c :: rest ∧ c ≠ ')') {r s : List Char} :
    (as bs : List α) → (∀ a ∈ as, ok a) → (∀ a ∈ as, ReadOff text ok a) → (∀ b ∈ bs, ok b) →
      commas (as.map text) ++ ')' :: r = commas (bs.map text) ++ ')' :: s → as = bs ∧ r = s
  | [], [], _, _, _, h => ⟨rfl, (List.cons.inj h).2⟩
  | [], b :: bs, _, _, hbs, h => by
    obtain ⟨c, rest, hb, hc⟩ := hopen b (hbs b (by simp))
    cases bs <;> simp [hb, Ne.symm hc] at h
  | a :: as, [], has, _, _, h => by
    obtain ⟨c, rest, ha, hc⟩ := hopen a (has a (by simp))
    cases as <;> simp [ha, hc] at h
  | [a], [b], _, hread, hbs, h => by
    simp only [List.map_cons, List.map_nil, commas_singleton] at h
    obtain ⟨rfl, hrs⟩ := hread a (by simp) (hbs b (by simp)) (by simp) (by simp) h
    exact ⟨rfl, (List.cons.inj hrs).2⟩
  -- After the same item one list ends, and the other goes on with a comma.
  | [a], b :: b' :: bs, _, hread, hbs, h => by
    simp only [List.map_cons, List.map_nil, commas_singleton, commas_cons_cons, List.append_assoc,
      List.cons_append] at h
    have hrs := (hread a (by simp) (hbs b (by simp)) (by simp) (by simp) h).2
    simp at hrs
  | a :: a' :: as, [b], _, hread, hbs, h => by
    simp only [List.map_cons, List.map_nil, commas_singleton, commas_cons_cons, List.append_assoc,
      List.cons_append] at h
    have hrs := (hread a (by simp) (hbs b (by simp)) (by simp) (by simp) h).2
    simp at hrs
  | a :: a' :: as, b :: b' :: bs, has, hread, hbs, h => by
    simp only [List.map_cons, commas_cons_cons, List.append_assoc, List.cons_append] at h
    obtain ⟨rfl, hrs⟩ := hread a (by simp) (hbs b (by simp)) (by simp) (by simp) h
    obtain ⟨htail, hrs⟩ := commas_append_inj hopen (a' :: as) (b' :: bs)
      (fun x hx => has x (List.mem_cons_of_mem _ hx))
      (fun x hx => hread x (List.mem_cons_of_mem _ hx))
      (fun x hx => hbs x (List.mem_cons_of_mem _ hx)) (by simpa using hrs)
    exact ⟨by rw [htail], hrs⟩

theorem word_opens {v : String} (hv : isWord v.toList) :
    ∃ c rest, v.toList = c :: rest ∧ isNameStart c := by
  cases hl : v.toList with
  | nil => simp [hl, isWord] at hv
  | cons c rest => exact ⟨c, rest, rfl, by simp_all [isWord]⟩

/-- A line does not begin like the end of a list. -/
theorem Line.text_opens {l : Line} (hl : l.IsSpelled) :
    ∃ c rest, l.text = c :: rest ∧ c ≠ ')' := by
  cases l with
  | name label rest =>
    obtain ⟨c, cs, hc, hstart⟩ := word_opens hl.1
    exact ⟨c, cs ++ rest.text, by simp [Line.text, hc], by rintro rfl; cases hstart⟩
  | arrow params body => exact ⟨'(', _, rfl, by decide⟩

theorem Tail.breaks {r : List Char} (hr : Stops r) (t : Tail) : Breaks (t.text ++ r) := by
  cases t with
  | done => exact hr.breaks
  | operation op rest => cases op <;> exact fun c hc => by cases hc; decide
  | _ => exact fun c hc => by cases hc; decide

theorem breaks_openParen {r : List Char} : Breaks ('(' :: r) := by
  intro c hc
  cases hc
  rfl

/-- Only a call goes on with an opening parenthesis. -/
theorem Tail.text_append_ne {r s : List Char} (hr : Stops r) (t : Tail) :
    t.text ++ r ≠ '(' :: s := by
  cases t with
  | done => rintro rfl; simp at hr
  | operation op _ => cases op <;> simp [Tail.text, Operator.text]
  | _ => simp [Tail.text]

/-- The mark that a tail begins with. -/
def Tail.mark : Tail → Option Char
  | done => none
  | operation .. => some ' '
  | index .. => some '['
  | member .. | call .. => some '.'

theorem Tail.mark_eq_filter {r : List Char} (hr : Stops r) (t : Tail) :
    t.mark = (t.text ++ r).head?.filter [' ', '[', '.'].contains := by
  cases t with
  | done =>
    cases r with
    | nil => rfl
    | cons c r => rcases stops_cons.1 hr with rfl | rfl | rfl <;> rfl
  | operation op _ => cases op <;> rfl
  | _ => rfl

theorem Operator.text_append_inj {o p : Operator} {r s : List Char}
    (h : o.text ++ r = p.text ++ s) : o = p ∧ r = s := by
  cases o <;> cases p <;> simp_all [Operator.text]

theorem Line.areSpelled_iff (ls : List Line) : Line.AreSpelled ls ↔ ∀ l ∈ ls, l.IsSpelled := by
  induction ls with
  | nil => simp [Line.AreSpelled]
  | cons l ls ih => simp [Line.AreSpelled, ih]

theorem Line.texts_eq_map (ls : List Line) : Line.texts ls = ls.map Line.text := by
  induction ls with
  | nil => rfl
  | cons l ls ih => rw [Line.texts, ih, List.map_cons]

mutual

theorem Line.readOff : (l : Line) → l.IsSpelled → ReadOff Line.text Line.IsSpelled l
  | .name v t, hl, .name w u, r, s, hl', hr, hs, h => by
    simp only [Line.text, List.append_assoc] at h
    obtain ⟨hvw, h⟩ := word_append_inj hl.1 hl'.1 (t.breaks hr) (u.breaks hs) h
    obtain ⟨rfl, hrs⟩ := Tail.readOff t hl.2 hl'.2 hr hs h
    exact ⟨by rw [String.toList_inj.1 hvw], hrs⟩
  -- A name does not begin with a parenthesis.
  | .name v t, hl, .arrow .., r, s, hl', hr, hs, h => by
    obtain ⟨c, rest, hc, hstart⟩ := word_opens hl.1
    simp only [Line.text, hc, List.cons_append, List.cons.injEq] at h
    exact absurd (h.1 ▸ hstart) (by decide)
  | .arrow .., hl, .name w u, r, s, hl', hr, hs, h => by
    obtain ⟨c, rest, hc, hstart⟩ := word_opens hl'.1
    simp only [Line.text, hc, List.cons_append, List.cons.injEq] at h
    exact absurd (h.1 ▸ hstart) (by decide)
  | .arrow ps b, hl, .arrow qs b', r, s, hl', hr, hs, h => by
    simp only [Line.text, List.cons_append, List.append_assoc, List.cons.injEq, true_and] at h
    obtain ⟨rfl, h⟩ := commas_append_inj
      (fun v hv => by
        obtain ⟨c, rest, hc, hstart⟩ := word_opens hv
        exact ⟨c, rest, hc, by rintro rfl; cases hstart⟩)
      ps qs hl.1 (fun p hp => string_readOff (hl.1 p hp)) hl'.1 h
    obtain ⟨rfl, hrs⟩ := Line.readOff b hl.2 hl'.2 hr hs (by simpa using h)
    exact ⟨rfl, hrs⟩

theorem Tail.readOff : (t : Tail) → t.IsSpelled → ReadOff Tail.text Tail.IsSpelled t
  | t, ht, u, r, s, hu, hr, hs, h => by
    -- Tails with one text begin with one mark. After it only a member and a call
    -- are to be told apart, which is done by what follows the label.
    have hmark : t.mark = u.mark := by rw [t.mark_eq_filter hr, u.mark_eq_filter hs, h]
    cases t with
    | done =>
      cases u with
      | done => exact ⟨rfl, h⟩
      | _ => simp [Tail.mark] at hmark
    | operation op l =>
      cases u with
      | operation op' l' =>
        simp only [Tail.text, List.append_assoc] at h
        obtain ⟨rfl, hl⟩ := Operator.text_append_inj h
        obtain ⟨rfl, hrs⟩ := Line.readOff l ht hu hr hs hl
        exact ⟨rfl, hrs⟩
      | _ => simp [Tail.mark] at hmark
    | index k t =>
      cases u with
      | index k' u =>
        simp only [Tail.text, List.cons_append, List.append_assoc, List.cons.injEq, true_and] at h
        obtain ⟨rfl, hrest⟩ := Line.readOff k ht.1 hu.1 (by simp) (by simp) h
        obtain ⟨rfl, hrs⟩ := Tail.readOff t ht.2 hu.2 hr hs (List.cons.inj hrest).2
        exact ⟨rfl, hrs⟩
      | _ => simp [Tail.mark] at hmark
    | member v t =>
      cases u with
      | member w u =>
        simp only [Tail.text, List.cons_append, List.append_assoc, List.cons.injEq, true_and] at h
        obtain ⟨hvw, h⟩ := word_append_inj ht.1 hu.1 (t.breaks hr) (u.breaks hs) h
        obtain ⟨rfl, hrs⟩ := Tail.readOff t ht.2 hu.2 hr hs h
        exact ⟨by rw [String.toList_inj.1 hvw], hrs⟩
      | call w args u =>
        simp only [Tail.text, List.cons_append, List.append_assoc, List.cons.injEq, true_and] at h
        obtain ⟨-, hrest⟩ := word_append_inj ht.1 hu.1 (t.breaks hr) breaks_openParen h
        exact absurd hrest (t.text_append_ne hr)
      | _ => simp [Tail.mark] at hmark
    | call v args t =>
      cases u with
      | member w u =>
        simp only [Tail.text, List.cons_append, List.append_assoc, List.cons.injEq, true_and] at h
        obtain ⟨-, hrest⟩ := word_append_inj ht.1 hu.1 breaks_openParen (u.breaks hs) h
        exact absurd hrest.symm (u.text_append_ne hs)
      | call w args' u =>
        simp only [Tail.text, List.cons_append, List.append_assoc, List.cons.injEq, true_and] at h
        obtain ⟨hvw, hargs⟩ := word_append_inj ht.1 hu.1 breaks_openParen breaks_openParen h
        rw [Line.texts_eq_map, Line.texts_eq_map, List.cons.injEq] at hargs
        obtain ⟨rfl, hrest⟩ := commas_append_inj (fun _ => Line.text_opens) args args'
          ((Line.areSpelled_iff _).1 ht.2.1) (Line.all_readOff args ht.2.1)
          ((Line.areSpelled_iff _).1 hu.2.1) hargs.2
        obtain ⟨rfl, hrs⟩ := Tail.readOff t ht.2.2 hu.2.2 hr hs hrest
        exact ⟨by rw [String.toList_inj.1 hvw], hrs⟩
      | _ => simp [Tail.mark] at hmark

theorem Line.all_readOff : (ls : List Line) → Line.AreSpelled ls →
    ∀ l ∈ ls, ReadOff Line.text Line.IsSpelled l
  | [], _, _, h => absurd h List.not_mem_nil
  | first :: rest, hs, l, h => by
    rcases List.mem_cons.1 h with h | h
    · exact h ▸ Line.readOff first hs.1
    · exact Line.all_readOff rest hs.2 l h

end

/-- Two expressions have the same script exactly when they are regroupings of
    one another. -/
theorem Expr.text_eq_iff {e e' : Expr} (he : e.IsSpelled) (he' : e'.IsSpelled) :
    e.text = e'.text ↔ Regrouped e e' := by
  refine ⟨fun h => ?_, Regrouped.text_eq⟩
  -- The script is that of one line, and both expressions are regroupings of it.
  have hline : e.line .done = e'.line .done := by
    refine ((e.line .done).readOff (e.isSpelled_line he trivial) (b := e'.line .done) (r := [])
      (s := []) (e'.isSpelled_line he' trivial) (by simp [Stops]) (by simp [Stops]) ?_).1
    rw [text_line, text_line, h]
  have h₁ := (e.line_regrouped .done).symm
  rw [hline] at h₁
  exact h₁.trans (e'.line_regrouped .done)

/-! ## Scripts of parsed trees -/

namespace Node

open Parse (Derives)

/-- What the node has in common with the expression. -/
structure Shows (n : Node) (e : Expr) : Prop where
  bare : n.bare = e.node
  text : n.script.toList = e.text
  isSpelled : Derives (isWord ·) .part n → e.IsSpelled

theorem label_shows {n : Node} {label : String} (h : n.label? = some label) :
    n.bare = .identifier label .unknown ∧ n.scriptMember = label ∧
      (Derives (isWord ·) .part n → isWord label.toList) := by
  unfold label? at h
  split at h
  · split at h
    · cases h
    · next hne =>
      cases h
      exact ⟨by simp, by simp [scriptMember, Script.rename, hne], Derives.isSpelled⟩
  · cases h

theorem params_show {params : List Node} {names : List String}
    (h : params.mapM paramName? = some names) :
    params.map Node.bare = names.map (fun p => .parameter (.var p .unknown) .unknown) ∧
      scriptList params = names ∧
      ((∀ p ∈ params, Derives (isWord ·) .part p) → ∀ name ∈ names, isWord name.toList) := by
  induction params generalizing names with
  | nil =>
    cases h
    exact ⟨rfl, rfl, by simp⟩
  | cons p params ih =>
    simp only [List.mapM_cons, Option.bind_eq_bind, Option.bind_eq_some_iff, Option.pure_def,
      Option.some.injEq] at h
    obtain ⟨name, hp, rest, hrest, rfl⟩ := h
    unfold paramName? at hp
    split at hp
    · next label s s' =>
      cases hp
      refine ⟨by simp [(ih hrest).1], by simp [scriptList, script, (ih hrest).2.1], fun hd => ?_⟩
      have hv : Derives (isWord ·) .part (.var name s) :=
        (hd _ List.mem_cons_self).child (by simp [children])
      exact List.forall_mem_cons.2
        ⟨hv.isSpelled, (ih hrest).2.2 fun p hp => hd p (List.mem_cons_of_mem _ hp)⟩
    · cases hp

theorem toList_parens (texts : List String) :
    (Emit.parens texts).toList = '(' :: commas (texts.map String.toList) ++ [')'] := by
  simp [Emit.parens, Emit.join, commas, String.toList_intercalate]

mutual

theorem expr_shows (n : Node) {e : Expr} (h : n.expr? = some e) : n.Shows e := by
  cases n with
  | var label s =>
    cases h
    exact ⟨by simp, rfl, Derives.isSpelled⟩
  | assign target value s | addAssign target value s | concat target value s =>
    simp only [expr?, Option.bind_eq_bind, Option.bind_eq_some_iff, Option.pure_def,
      Option.some.injEq] at h
    obtain ⟨l, hl, r, hr, rfl⟩ := h
    have hl := expr_shows target hl
    have hr := expr_shows value hr
    refine ⟨by simp [hl.bare, hr.bare],
      by simp [script, Expr.text, Operator.text, hl.text, hr.text], fun hd => ?_⟩
    exact ⟨hl.isSpelled (hd.child (by simp [children])),
      hr.isSpelled (hd.child (by simp [children]))⟩
  | arrowFunction params body s =>
    simp only [expr?, Option.bind_eq_bind, Option.bind_eq_some_iff, Option.pure_def,
      Option.some.injEq] at h
    obtain ⟨names, hps, b, hb, rfl⟩ := h
    have hps := params_show hps
    have hb := expr_shows body hb
    refine ⟨by simp [hps.1, hb.bare],
      by simp [script, Expr.text, toList_parens, hps.2.1, hb.text], fun hd => ?_⟩
    exact ⟨hps.2.2 fun p hp => hd.child (by simp [children, hp]),
      hb.isSpelled (hd.child (by simp [children]))⟩
  | index base key s =>
    cases key with
    | none => simp [expr?] at h
    | some key =>
      simp only [expr?, Option.bind_eq_bind, Option.bind_eq_some_iff, Option.pure_def,
        Option.some.injEq] at h
      obtain ⟨b, hb, k, hk, rfl⟩ := h
      have hb := expr_shows base hb
      have hk := expr_shows key hk
      refine ⟨by simp [hb.bare, hk.bare], by simp [script, Expr.text, hb.text, hk.text],
        fun hd => ?_⟩
      exact ⟨hb.isSpelled (hd.child (by simp [children])),
        hk.isSpelled (hd.child (by simp [children]))⟩
  | member base label s =>
    simp only [expr?, Option.bind_eq_bind, Option.bind_eq_some_iff, Option.pure_def,
      Option.some.injEq] at h
    obtain ⟨b, hb, m, hm, rfl⟩ := h
    have hb := expr_shows base hb
    have hm := label_shows hm
    refine ⟨by simp [hb.bare, hm.1], by simp [script, Expr.text, hb.text, hm.2.1], fun hd => ?_⟩
    exact ⟨hb.isSpelled (hd.child (by simp [children])), hm.2.2 (hd.child (by simp [children]))⟩
  | methodCall target label args s =>
    simp only [expr?, Option.bind_eq_bind, Option.bind_eq_some_iff, Option.pure_def,
      Option.some.injEq] at h
    obtain ⟨b, hb, m, hm, es, hes, rfl⟩ := h
    have hb := expr_shows target hb
    have hm := label_shows hm
    have hes := args_show args hes
    refine ⟨by simp [hb.bare, hm.1, hes.1],
      by simp [script, Expr.text, toList_parens, hb.text, hm.2.1, hes.2.1], fun hd => ?_⟩
    exact ⟨hb.isSpelled (hd.child (by simp [children])), hm.2.2 (hd.child (by simp [children])),
      hes.2.2 fun a ha => hd.child (by simp [children, ha])⟩
  | _ => simp [expr?] at h

theorem args_show (args : List Node) {es : List Expr} (h : argExprs? args = some es) :
    args.map Node.bare = Expr.argNodes es ∧
      (scriptList args).map String.toList = Expr.texts es ∧
      ((∀ a ∈ args, Derives (isWord ·) .part a) → Expr.AreSpelled es) := by
  cases args with
  | nil =>
    cases h
    exact ⟨by simp, rfl, fun _ => trivial⟩
  | cons first rest =>
    cases first with
    | argument value s =>
      simp only [argExprs?, Option.bind_eq_bind, Option.bind_eq_some_iff, Option.pure_def,
        Option.some.injEq] at h
      obtain ⟨e, he, es, hes, rfl⟩ := h
      have he := expr_shows value he
      have hes := args_show rest hes
      refine ⟨by simp [he.bare, hes.1],
        by simp [scriptList, script, Expr.texts, he.text, hes.2.1], fun hd => ?_⟩
      exact ⟨he.isSpelled ((hd _ List.mem_cons_self).child (by simp [children])),
        hes.2.2 fun a ha => hd a (List.mem_cons_of_mem _ ha)⟩
    | _ => simp [argExprs?] at h

end

end Node

/-- Two parsed trees of the fragment get the same script, from any printers,
    exactly when their expressions are regroupings of one another. -/
theorem same_script_iff_regrouped {text text' : String} {n n' : Node}
    (hsize : text.utf8ByteSize ≤ Span.limit) (hsize' : text'.utf8ByteSize ≤ Span.limit)
    (hn : Parse.IsParsed text n) (hn' : Parse.IsParsed text' n') {e e' : Expr}
    (he : n.expr? = some e) (he' : n'.expr? = some e') {p q p' q' : Printer} {x x' : String}
    (hx : Emit.node n p = .ok x q) (hx' : Emit.node n' p' = .ok x' q') :
    x = x' ↔ Regrouped e e' := by
  have hshow := n.expr_shows he
  have hshow' := n'.expr_shows he'
  rw [(Emit.node_describes n).eq_of_ok hx, (Emit.node_describes n').eq_of_ok hx',
    ← String.toList_inj, hshow.text, hshow'.text]
  exact Expr.text_eq_iff (hshow.isSpelled (hn.derives hsize))
    (hshow'.isSpelled (hn'.derives hsize'))

/-! ## An instance -/

/-- `($a = $b)->c` -/
def memberOfAssign : Expr := .member (.operation .assign (.var "a") (.var "b")) "c"

/-- `$a = $b->c` -/
def assignOfMember : Expr := .operation .assign (.var "a") (.member (.var "b") "c")

/-- One statement, of the member of an assignment. -/
def isMemberOfAssign : List Node → Bool
  | [.expression (.member (.assign (.var "a" _) (.var "b" _) _) (.identifier "c" _) _) _] => true
  | _ => false

/-- One statement, of the assignment of a member. -/
def isAssignOfMember : List Node → Bool
  | [.expression (.assign (.var "a" _) (.member (.var "b" _) (.identifier "c" _) _) _) _] => true
  | _ => false

theorem memberOfAssign_parsed :
    ∃ n, Parse.IsParsed "<?php ($a = $b)->c;" n ∧ n.expr? = some memberOfAssign ∧
      Emit.node n {} = .ok "a = b.c" {} := by
  have hcheck : (Parse.source "<?php ($a = $b)->c;").toOption.any isMemberOfAssign := by
    decide +kernel
  obtain ⟨nodes, hsource, hshape⟩ := Parse.exists_of_any hcheck
  unfold isMemberOfAssign at hshape
  split at hshape
  · exact ⟨_, .of_expression hsource, rfl, rfl⟩
  · cases hshape

theorem assignOfMember_parsed :
    ∃ n, Parse.IsParsed "<?php $a = $b->c;" n ∧ n.expr? = some assignOfMember ∧
      Emit.node n {} = .ok "a = b.c" {} := by
  have hcheck : (Parse.source "<?php $a = $b->c;").toOption.any isAssignOfMember := by
    decide +kernel
  obtain ⟨nodes, hsource, hshape⟩ := Parse.exists_of_any hcheck
  unfold isAssignOfMember at hshape
  split at hshape
  · exact ⟨_, .of_expression hsource, rfl, rfl⟩
  · cases hshape

/-- A member of an assignment gets the script of an assignment of the member, so
    they are regroupings. -/
theorem assign_same_script_regrouped :
    Regrouped memberOfAssign assignOfMember ∧
      ("<?php ($a = $b)->c;".utf8ByteSize ≤ Span.limit ∧
        "<?php $a = $b->c;".utf8ByteSize ≤ Span.limit) ∧
      ∃ n n', Parse.IsParsed "<?php ($a = $b)->c;" n ∧ Parse.IsParsed "<?php $a = $b->c;" n' ∧
        n.expr? = some memberOfAssign ∧ n'.expr? = some assignOfMember ∧
        Emit.node n {} = .ok "a = b.c" {} ∧ Emit.node n' {} = .ok "a = b.c" {} := by
  obtain ⟨n, hn, he, hx⟩ := memberOfAssign_parsed
  obtain ⟨n', hn', he', hx'⟩ := assignOfMember_parsed
  have hsize : "<?php ($a = $b)->c;".utf8ByteSize ≤ Span.limit := by decide +kernel
  have hsize' : "<?php $a = $b->c;".utf8ByteSize ≤ Span.limit := by decide +kernel
  exact ⟨(same_script_iff_regrouped hsize hsize' hn hn' he he' hx hx').1 rfl, ⟨hsize, hsize'⟩,
    n, n', hn, hn', he, he', hx, hx'⟩

/-- Parsed trees of the fragment with one script need not be equal up to places. -/
theorem same_script_ne :
    ¬∀ (text text' : String) (n n' : Node), Parse.IsParsed text n → Parse.IsParsed text' n' →
      ∀ e e' : Expr, n.expr? = some e → n'.expr? = some e' →
        ∀ x : String, Emit.node n {} = .ok x {} → Emit.node n' {} = .ok x {} →
          n.bare = n'.bare := by
  intro h
  obtain ⟨n, hn, he, hx⟩ := memberOfAssign_parsed
  obtain ⟨n', hn', he', hx'⟩ := assignOfMember_parsed
  have hbare := h _ _ n n' hn hn' _ _ he he' _ hx hx'
  rw [(n.expr_shows he).bare, (n'.expr_shows he').bare] at hbare
  simp [memberOfAssign, assignOfMember] at hbare

end PhpScript
