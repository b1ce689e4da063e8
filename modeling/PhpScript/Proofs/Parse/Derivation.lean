import PhpScript.Parse.Program
import PhpScript.Proofs.Token.Words

/-!
# Derivations of trees

The trees that parsing can build, by rules in place of parsers. A node is
derived in a `Form`, which says where in a program it stands and how many
levels of nesting are left there:

* an expression takes a level for itself, and so does a statement, so there is
  no rule for either with none left;
* a chain of links is derived over the levels `levels` that its first part was
  read with, of which `left` remain after the links so far. Its first part is
  *not* read with what remains, since the links are counted only after it.

`Derives` keeps apart what the type of nodes does not: names, labels, variables,
arguments, items and parameters stand only where a rule puts them. What a name is
spelled with is left to a predicate. That every parsed tree has a derivation, and
one over words when the offsets of its text fit into spans, is shown in
`PhpScript.Proofs.Parse.Soundness`.
-/

namespace PhpScript.Parse

/-- Where a node stands, with the levels of nesting that are left for it. -/
inductive Form
  /-- A statement or a namespace of a program. -/
  | topLevel
  /-- A statement of a program or of one of its namespaces. -/
  | programStatement
  | statement (levels : Nat)
  /-- A member of a class. -/
  | classMember (levels : Nat)
  /-- One name of a property declaration. -/
  | propertyItem (levels : Nat)
  | expression (levels : Nat)
  /-- Operands with binary operators between them. -/
  | operation (levels left : Nat)
  /-- A primary expression with accesses and calls after it. -/
  | access (levels left : Nat)
  | primary (levels : Nat)
  | argument (levels : Nat)
  /-- An item of an array. -/
  | item (levels : Nat)
  /-- What names the member in an access. -/
  | memberName (levels : Nat)
  /-- The class of an object construction. -/
  | constructed (levels : Nat)
  | parameter
  | var
  /-- The name of a member or of a declaration. -/
  | label
  | name
  /-- A child of a construct without a rule, which can be anything. -/
  | part

/-- Whether a construct without a rule can stand in a form. -/
def Form.AdmitsOther : Form → Prop
  | statement levels | expression levels => 0 < levels
  | operation levels left | access levels left => left ≤ levels
  | classMember _ | primary _ => True
  | _ => False

/-- The trees of a form, in which names are `W`. -/
inductive Derives (W : List Char → Prop) : Form → Node → Prop
  -- programs and statements
  | programStatement {levels n} : levels ≤ maxDepth → Derives W (.statement levels) n →
      Derives W .programStatement n
  | topStatement {n} : Derives W .programStatement n → Derives W .topLevel n
  | namespaceBlock {label body s} : (∀ l ∈ label, Derives W .name l) →
      (∀ n ∈ body, Derives W .programStatement n) →
      Derives W .topLevel (.namespaceBlock label body s)
  | expressionStatement {levels e s} : Derives W (.expression levels) e →
      Derives W (.statement (levels + 1)) (.expression e s)
  | returns {levels value s} : (∀ v ∈ value, Derives W (.expression levels) v) →
      Derives W (.statement (levels + 1)) (.returns value s)
  | classDecl {levels label members s} : Derives W .label label →
      (∀ m ∈ members, Derives W (.classMember levels) m) →
      Derives W (.statement (levels + 1)) (.classDecl (some label) none members s)
  | property {levels flags items s} : flags.isEmpty = false → items ≠ [] →
      (∀ i ∈ items, Derives W (.propertyItem levels) i) →
      Derives W (.classMember levels) (.property flags items s)
  | method {levels flags label params body s} : Derives W .label label →
      (∀ p ∈ params, Derives W .parameter p) →
      (∀ b ∈ body, ∀ n ∈ b, Derives W (.statement levels) n) →
      Derives W (.classMember levels) (.method flags label params body s)
  | propertyItem {levels label initial s} : Derives W .label label →
      (∀ v ∈ initial, Derives W (.expression levels) v) →
      Derives W (.propertyItem levels) (.propertyItem label initial s)
  -- operators
  | ofOperation {levels left n} : Derives W (.operation levels left) n →
      Derives W (.expression (levels + 1)) n
  | assign {levels left target value s} : Derives W (.operation levels left) target →
      target.isAssignable → Derives W (.expression levels) value →
      Derives W (.expression (levels + 1)) (.assign target value s)
  | addAssign {levels left target value s} : Derives W (.operation levels left) target →
      target.isAssignable → Derives W (.expression levels) value →
      Derives W (.expression (levels + 1)) (.addAssign target value s)
  | ofAccess {levels left n} : Derives W (.access levels left) n →
      Derives W (.operation levels levels) n
  | concat {levels left rest l r s} : Derives W (.operation levels (left + 1)) l →
      Derives W (.operation left rest) r → Derives W (.operation levels left) (.concat l r s)
  -- accesses and calls
  | ofPrimary {levels n} : Derives W (.primary levels) n → Derives W (.access levels levels) n
  | methodCall {levels left base label args s} : Derives W (.access levels (left + 1)) base →
      Derives W (.memberName left) label → (∀ a ∈ args, Derives W (.argument left) a) →
      Derives W (.access levels left) (.methodCall base label args s)
  | member {levels left base label s} : Derives W (.access levels (left + 1)) base →
      Derives W (.memberName left) label → Derives W (.access levels left) (.member base label s)
  | index {levels left base key s} : Derives W (.access levels (left + 1)) base →
      (∀ k ∈ key, Derives W (.expression left) k) →
      Derives W (.access levels left) (.index base key s)
  | call {levels left callee args s} : Derives W (.access levels (left + 1)) callee →
      (∀ a ∈ args, Derives W (.argument left) a) →
      Derives W (.access levels left) (.functionCall callee args s)
  | callByName {left callee args s} : Derives W .name callee →
      (∀ a ∈ args, Derives W (.argument left) a) →
      Derives W (.access (left + 1) left) (.functionCall callee args s)
  -- primary expressions
  | ofVariable {levels n} : Derives W .var n → Derives W (.primary levels) n
  | integer {levels s} {value : Nat} : Derives W (.primary levels) (.integer value s)
  | float {levels value s} : Derives W (.primary levels) (.float value s)
  | string {levels value s} : Derives W (.primary levels) (.string value s)
  | constant {levels label s} : Derives W .name label →
      Derives W (.primary levels) (.constant label s)
  | array {levels slots s} : (∀ slot ∈ slots, ∀ i ∈ slot, Derives W (.item levels) i) →
      Derives W (.primary levels) (.array slots s)
  | group {levels e} : Derives W (.expression levels) e → Derives W (.primary levels) e
  | construct {levels cls args s} : Derives W (.constructed levels) cls →
      (∀ a ∈ args, Derives W (.argument levels) a) →
      Derives W (.primary levels) (.construct cls args s)
  | arrowFunction {levels params body s} : (∀ p ∈ params, Derives W .parameter p) →
      Derives W (.expression levels) body →
      Derives W (.primary levels) (.arrowFunction params body s)
  | closure {levels params uses body s} : (∀ p ∈ params, Derives W .parameter p) →
      (∀ u ∈ uses, Derives W .var u) → (∀ n ∈ body, Derives W (.statement levels) n) →
      Derives W (.primary levels) (.closure params uses body s)
  -- parts of expressions
  | argument {levels value s} : Derives W (.expression levels) value →
      Derives W (.argument levels) (.argument value s)
  | item {levels key value s} : (∀ k ∈ key, Derives W (.expression levels) k) →
      Derives W (.expression levels) value → Derives W (.item levels) (.arrayItem key value s)
  | memberByLabel {levels n} : Derives W .label n → Derives W (.memberName levels) n
  | memberByVariable {levels n} : Derives W .var n → Derives W (.memberName levels) n
  | memberByExpression {levels n} : Derives W (.expression levels) n →
      Derives W (.memberName levels) n
  | constructedByName {levels n} : Derives W .name n → Derives W (.constructed levels) n
  | constructedByVariable {levels n} : Derives W .var n → Derives W (.constructed levels) n
  | constructedByExpression {levels n} : Derives W (.expression levels) n →
      Derives W (.constructed levels) n
  | parameter {var s} : Derives W .var var → Derives W .parameter (.parameter var s)
  -- names
  | var {name s} : W name.toList → Derives W .var (.var name s)
  | label {name s} : W name.toList → Derives W .label (.identifier name s)
  | name {parts fullyQualified s} : parts ≠ [] → (∀ part ∈ parts, W part.toList) →
      Derives W .name (.name parts fullyQualified s)
  -- constructs without a rule
  | other {form kind children s} : form.AdmitsOther → (∀ c ∈ children, Derives W .part c) →
      Derives W form (.other kind children s)
  | part {form n} : Derives W form n → Derives W .part n

/-- The levels that a form's links have left are among those it began with. -/
def Form.IsOrdered : Form → Prop
  | operation levels left | access levels left => left ≤ levels
  | _ => True

theorem Derives.isOrdered {W : List Char → Prop} {form : Form} {n : Node}
    (h : Derives W form n) : form.IsOrdered := by
  induction h with
  | ofAccess => exact Nat.le_refl _
  | ofPrimary => exact Nat.le_refl _
  | callByName => exact Nat.le_succ _
  | concat _ _ ih => exact Nat.le_of_succ_le ih
  | methodCall _ _ _ ih => exact Nat.le_of_succ_le ih
  | member _ _ ih => exact Nat.le_of_succ_le ih
  | index _ _ ih => exact Nat.le_of_succ_le ih
  | call _ _ ih => exact Nat.le_of_succ_le ih
  | @other form _ _ _ hform =>
    cases form with
    | operation => exact hform
    | access => exact hform
    | _ => exact trivial
  | _ => exact trivial

end PhpScript.Parse
