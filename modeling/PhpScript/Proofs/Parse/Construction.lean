import PhpScript.Proofs.Parse.Occurrence
import PhpScript.Proofs.Parse.RoundTrip

/-!
# The class of a construction

`new` takes a variable after it as its class, and nothing more: members and
indices that follow the variable are read as accesses on the new object, and
arguments after those as a call of what was accessed. So a class that is held in
a member or in an array cannot be constructed (`source_new`).

The expressions and arguments in a program are any tokens that their parsers
read, with the tree that is read and the levels that are taken (`Phrase`,
`ArgumentList`).
-/

namespace PhpScript.Parse

open Grammar

/-- A mark, as a token without its place. -/
abbrev punct (s : Symbol) : Sig := (.symbol s, s.text)

/-! ## Parts of a program -/

/-- Tokens that are an expression: before any token that ends one they are read as the tree,
    as far as there are enough levels left. -/
structure Phrase where
  words : List Sig
  tree : Node
  levels : Nat
  isRead : ∀ L, Reads (ofLevels L).expression words (isClosing ·) (levels + 1 ≤ L)
    fun n => n.bare = tree

/-- Tokens that are the arguments of a call, in parentheses. -/
structure ArgumentList where
  words : List Sig
  trees : List Node
  levels : Nat
  isRead : ∀ L, Reads (arguments (ofLevels L).expression) words Any (levels ≤ L)
    fun ns => ns.map Node.bare = trees

/-- Terms are arguments. -/
def ArgumentList.ofTerms (args : List Written.Term) : ArgumentList where
  words := Piece.words (Piece.paren (Piece.commaList (Written.argPieces args)))
  trees := Written.argNodes args
  levels := Written.argLevels args
  isRead _ := Written.arguments_reads fun a _ => a.isRead

/-- What a parser reads does not begin with a token at which it fails. -/
theorem Reads.begins {p : Parser α} {ws : List Sig} {follow : TokenKind → Prop} {fits : Prop}
    {Q : α → Prop} {next : TokenKind} (h : Reads p ws follow fits Q) (hfits : fits)
    (hnext : follow next) (good : TokenKind → Prop)
    (hfails : ∀ c : Cursor, ¬good c.current.kind → ∃ e after, p c = .error e after) :
    good (firstKind ws next) := by
  by_contra hbad
  let ts : List Token := ws.map fun w => ⟨w.1, .unknown, w.2⟩
  have hts : ts.map Token.sig = ws := by simp [ts, Token.sig, Function.comp_def]
  let rest : List Token := [⟨next, .unknown, ""⟩]
  obtain ⟨a, after, hok, -⟩ := h.ok (c := ⟨ts ++ rest, 0, 0⟩) rfl hts hnext hfits
  have hcurrent : (Cursor.current ⟨ts ++ rest, 0, 0⟩).kind = firstKind ws next :=
    kindAt_append hts
  obtain ⟨e, after', herror⟩ := hfails ⟨ts ++ rest, 0, 0⟩ (by rwa [hcurrent])
  cases hok.symm.trans herror

theorem expression_closeBracket {L : Nat} {c : Cursor}
    (hc : c.current.kind = .symbol .closeBracket) :
    ∃ e after, (ofLevels (L + 1)).expression c = .error e after := by
  obtain ⟨rest, lastStop, depth⟩ := c
  cases rest with
  | nil => cases hc
  | cons t rest =>
    obtain ⟨kind, span, text⟩ := t
    cases hc
    exact ⟨_, _, rfl⟩

theorem Phrase.firstKind_ne (p : Phrase) (k : TokenKind) :
    firstKind p.words k ≠ .symbol .closeBracket := by
  have hne : firstKind p.words (.symbol .closeBracket) ≠ .symbol .closeBracket :=
    (p.isRead (p.levels + 1)).begins (Nat.le_refl _) rfl (· ≠ .symbol .closeBracket) fun c hc =>
      expression_closeBracket (not_not.1 hc)
  cases hws : p.words with
  | nil => exact absurd (by rw [hws]; rfl) hne
  | cons w ws => rwa [hws] at hne

theorem ArgumentList.firstKind_eq (args : ArgumentList) (k : TokenKind) :
    firstKind args.words k = .symbol .openParen := by
  have hfails (c : Cursor) (hc : c.current.kind ≠ .symbol .openParen) :
      ∃ e after, arguments (ofLevels args.levels).expression c = .error e after := by
    refine ⟨.unexpected (.expectedToken (.symbol .openParen)) c.current, c, ?_⟩
    simp [arguments, expect, isAt, complain, Bind.bind, EStateM.bind, hc]
  have hfirst : firstKind args.words (.symbol .semicolon) = .symbol .openParen :=
    (args.isRead args.levels).begins (Nat.le_refl _) trivial (· = .symbol .openParen) hfails
  cases hws : args.words with
  | nil =>
    rw [hws] at hfirst
    cases hfirst
  | cons w ws => rwa [hws] at hfirst

/-! ## Suffixes -/

/-- An access after an expression. -/
inductive Suffix
  /-- `->label` -/
  | member (label : Sig) (isIdentifierLike : label.1.isIdentifierLike)
  /-- `[key]` -/
  | index (key : Phrase)

namespace Suffix

/-- The tokens of an access. -/
def words : Suffix → List Sig
  | member label _ => [punct .arrow, label]
  | index key => punct .openBracket :: (key.words ++ [punct .closeBracket])

/-- The levels that the parts of an access take. -/
def levels : Suffix → Nat
  | member _ _ => 0
  | index key => key.levels + 1

/-- The access on an expression. -/
def node (base : Node) : Suffix → Node
  | member label _ => .member base (.identifier label.2 .unknown) .unknown
  | index key => .index base (some key.tree) .unknown

/-- The access on an expression, when it is called. -/
def called (base : Node) (args : List Node) : Suffix → Node
  | member label _ => .methodCall base (.identifier label.2 .unknown) args .unknown
  | index key => .functionCall (.index base (some key.tree) .unknown) args .unknown

/-- The levels that an access takes when it is called. A method is one link of a chain, an
    index and a call are two. -/
def calledLevels (args : Nat) : Suffix → Nat
  | member _ _ => args + 1
  | index key => max (key.levels + 1) (args + 1) + 1

/-- Accesses one after the other. -/
def chain (base : Node) (suffixes : List Suffix) : Node := suffixes.foldl node base

/-- The levels that accesses take, with `rest` levels for what comes after them. -/
def chainLevels (rest : Nat) (suffixes : List Suffix) : Nat :=
  suffixes.foldr (fun s n => max s.levels n + 1) rest

variable {base b : Node} {start : Span} {L : Nat}

theorem isPostfix_firstKind (s : Suffix) (k : TokenKind) : isPostfix (firstKind s.words k) := by
  cases s <;> rfl

theorem firstKind_ne (s : Suffix) (k : TokenKind) : firstKind s.words k ≠ .symbol .openParen := by
  cases s <;> nofun

theorem link_reads (s : Suffix) (hb : base.bare = b) :
    Reads (postfixLink (ofLevels L).expression base start) s.words (· ≠ .symbol .openParen)
      (s.levels ≤ L) fun n => n.bare = s.node b := by
  cases s with
  | member label hlabel => exact (memberLink_of_label hb hlabel).zero_le
  | index key =>
    exact (indexLink_of_key hb key.firstKind_ne (key.isRead L)).before fun _ _ => trivial

/-- Accesses one after the other, and what is read after them. -/
theorem links_reads {ws : List Sig} {follow : TokenKind → Prop} {n : Nat} {Q : Node → Prop}
    {suffixes : List Suffix} (hws : ∀ k, firstKind ws k ≠ .symbol .openParen)
    (hrest : ∀ base, base.bare = chain b suffixes → ∀ L,
      Reads ((ofLevels L).links start base) ws follow (n ≤ L) Q)
    (hb : base.bare = b) :
    Reads ((ofLevels L).links start base) (suffixes.flatMap words ++ ws) follow
      (chainLevels n suffixes ≤ L) Q := by
  induction suffixes generalizing base b L with
  | nil => exact hrest base hb L
  | cons s suffixes ih =>
    rw [List.flatMap_cons, List.append_assoc]
    refine links_next s.isPostfix_firstKind (fun L => s.link_reads hb) (fun k _ => ?_)
      fun m hm L => ih hrest hm
    -- No parenthesis follows, which would make a method of a member.
    rw [firstKind_append]
    cases suffixes with
    | nil => exact hws k
    | cons s' suffixes =>
      rw [List.flatMap_cons, firstKind_append]
      exact s'.firstKind_ne _

/-- The last access, which the arguments belong to. -/
theorem called_reads (s : Suffix) (args : ArgumentList) (hb : base.bare = b) :
    Reads ((ofLevels L).links start base) (s.words ++ args.words) (isClosing ·)
      (s.calledLevels args.levels ≤ L) fun n => n.bare = s.called b args.trees := by
  have hclosing : ∀ k, isClosing k → isPostfix k = false := fun _ => isPostfix_of_isClosing
  cases s with
  | member label hlabel =>
    refine links_one (fun _ => rfl) hclosing fun L => ?_
    exact (methodLink_of_arguments hb hlabel args.firstKind_eq (args.isRead L)).before
      fun _ _ => trivial
  | index key =>
    refine links_next (isPostfix_firstKind (index key))
      (fun L => indexLink_of_key hb key.firstKind_ne (key.isRead L)) (fun _ _ => trivial)
      fun m hm L => links_one (fun k => ?_) hclosing fun L => ?_
    · rw [args.firstKind_eq k]
      rfl
    · exact (callLink_of_arguments hm args.firstKind_eq (args.isRead L)).before fun _ _ => trivial

end Suffix

/-! ## Constructions -/

/-- The variable in a token. -/
def varNode (text : String) : Node := .var (String.ofList (text.toList.drop 1)) .unknown

/-- What is constructed is the variable after the keyword, unless arguments follow it. -/
theorem construction_reads {expression : Parser Node} {block : Parser (List Node)}
    {word var : String} :
    Reads (primary expression block) [(.keyword .newKw, word), (.varName, var)]
      (· ≠ .symbol .openParen) True
      fun n => n.bare = .construct (varNode var) [] .unknown := by
  have hcls : Reads (constructedClass expression) [(.varName, var)] (· ≠ .symbol .openParen)
      True fun n => n.bare = varNode var := by
    refine .peek_cons .varName rfl fun t hk _ => ?_
    simp only [hk]
    refine .advance (by simp) fun t ht => .pure ?_
    have htext : t.text = var := congrArg Prod.snd ht
    rw [varOf, varNameOf, htext, Node.bare, varNode]
  refine .peek_cons (.keyword .newKw) rfl fun t hk _ => ?_
  simp only [hk]
  refine .expect rfl (by simp) fun _ _ => hcls.bind_last fun n hn => ?_
  refine .isAt (b := false) (by simp) (.spanFrom fun _ => .pure ?_)
  rw [Node.bare, hn, Node.bareList_eq_map, List.map_nil]

/-- `new`, a variable, accesses and arguments: the accesses are made on the new object. -/
theorem new_reads {word var : String} (init : List Suffix) (last : Suffix)
    (args : ArgumentList) (L : Nat) :
    Reads (ofLevels L).expression ([(.keyword .newKw, word), (.varName, var)] ++
        (init.flatMap Suffix.words ++ (last.words ++ args.words))) (isClosing ·)
      (Suffix.chainLevels (last.calledLevels args.levels) init + 1 ≤ L)
      fun n => n.bare =
        last.called (Suffix.chain (.construct (varNode var) [] .unknown) init) args.trees := by
  refine expression_of_operand (fun _ => rfl) fun L => .chain <| .peek fun _ _ _ => ?_
  refine construction_reads.bind_right (fun base hbase => ?_) fun k _ => ?_
  · refine Suffix.links_reads (fun k => ?_) (fun m hm L => last.called_reads args hm) hbase
    rw [firstKind_append]
    exact last.firstKind_ne _
  · rw [firstKind_append, firstKind_append]
    cases init with
    | nil => exact last.firstKind_ne _
    | cons s init =>
      rw [List.flatMap_cons, firstKind_append]
      exact s.firstKind_ne _

/-- The tokens of `new`, a variable, accesses, arguments and a semicolon. -/
def newWords (word var : String) (suffixes : List Suffix) (args : ArgumentList) :
    List Sig :=
  (.keyword .newKw, word) :: (.varName, var) ::
    (suffixes.flatMap Suffix.words ++ args.words ++ [punct .semicolon])

/-- A program of `new`, a variable, at least one access and arguments is read as the last access
    called on the others, which are made on an object of the variable's class without
    arguments. -/
theorem source_new {text word var : String} {ts : List Token} {eof : Span} {init : List Suffix}
    {last : Suffix} {args : ArgumentList}
    (hscan : Token.scan text = .ok (ts ++ [⟨.endOfFile, eof, ""⟩]))
    (hts : ts.map Token.sig = newWords word var (init ++ [last]) args) :
    let levels := Suffix.chainLevels (last.calledLevels args.levels) init
    (levels + 2 ≤ maxDepth ∧ ∃ n span, source text = .ok [.expression n span] ∧
      n.bare = last.called (Suffix.chain (.construct (varNode var) [] .unknown) init)
        args.trees) ∨
    (maxDepth < levels + 2 ∧ ∃ span, source text = .error (.tooDeep span)) := by
  have hwords : newWords word var (init ++ [last]) args =
      ([(.keyword .newKw, word), (.varName, var)] ++
        (init.flatMap Suffix.words ++ (last.words ++ args.words))) ++
        Piece.words [Piece.mark .semicolon] := by
    simp only [newWords, List.flatMap_append, List.flatMap_singleton, List.append_assoc]
    rfl
  have hbegins : Written.BeginsAsTerm ([(.keyword .newKw, word), (.varName, var)] ++
      (init.flatMap Suffix.words ++ (last.words ++ args.words))) :=
    ⟨fun _ => rfl, fun _ _ h => by cases h⟩
  exact Written.source_of_scan hscan (hts.trans hwords) hbegins (new_reads init last args)

/-- The tokens of `new $v->x(1);`. -/
def newMember : List Token :=
  [⟨.keyword .newKw, ⟨6, 9⟩, "new"⟩, ⟨.varName, ⟨10, 12⟩, "$v"⟩, ⟨.symbol .arrow, ⟨12, 14⟩, "->"⟩,
    ⟨.identifier, ⟨14, 15⟩, "x"⟩, ⟨.symbol .openParen, ⟨15, 16⟩, "("⟩,
    ⟨.integer, ⟨16, 17⟩, "1"⟩, ⟨.symbol .closeParen, ⟨17, 18⟩, ")"⟩,
    ⟨.symbol .semicolon, ⟨18, 19⟩, ";"⟩]

theorem scan_newMember :
    Token.scan "<?php new $v->x(1);" = .ok (newMember ++ [⟨.endOfFile, ⟨19, 19⟩, ""⟩]) := by
  decide +kernel

/-- The arguments `(1)`. -/
def oneArgument : ArgumentList := .ofTerms [.integer 1 Written.one_le_maxInteger]

theorem newMember_words :
    newMember.map Token.sig = newWords "new" "$v" ([] ++ [.member (.identifier, "x") rfl])
      oneArgument := by
  decide +kernel

theorem source_newMember :
    ∃ n span, source "<?php new $v->x(1);" = .ok [.expression n span] ∧
      n.bare = .methodCall (.construct (.var "v" .unknown) [] .unknown) (.identifier "x" .unknown)
        [.argument (.integer 1 .unknown) .unknown] .unknown := by
  rcases source_new scan_newMember newMember_words with ⟨-, h⟩ | ⟨hlevels, -⟩
  · exact h
  · exact absurd hlevels (by decide)

/-- A statement that calls a method. -/
def isMethodCallStatement : List Node → Bool
  | [.expression (.methodCall _ _ _ _) _] => true
  | _ => false

/-- Not every such program fails or constructs what the accesses lead to. -/
theorem not_always_new :
    ¬∀ (text word var : String) (ts : List Token) (eof : Span) (suffixes : List Suffix)
      (args : ArgumentList), suffixes ≠ [] →
      Token.scan text = .ok (ts ++ [⟨.endOfFile, eof, ""⟩]) →
      ts.map Token.sig = newWords word var suffixes args →
      ∀ nodes, source text = .ok nodes → ∃ n span, nodes = [.expression n span] ∧
        n.bare = .construct (Suffix.chain (varNode var) suffixes) args.trees .unknown := by
  intro h
  have hcheck : (source "<?php new $v->x(1);").toOption.any isMethodCallStatement := by
    decide +kernel
  obtain ⟨nodes, hsource, hshape⟩ := exists_of_any hcheck
  obtain ⟨n, span, rfl, hbare⟩ :=
    h _ _ _ _ _ _ _ (List.cons_ne_nil _ _) scan_newMember newMember_words _ hsource
  unfold isMethodCallStatement at hshape
  split at hshape
  · next heq =>
    cases heq
    rw [Node.bare] at hbare
    cases hbare
  · cases hshape

end PhpScript.Parse
