import PhpScript.Proofs.Parse.Links
import PhpScript.Proofs.Parse.Written
import PhpScript.Proofs.Token.Wrapped

/-!
# Reading what was written

A term that is written and read again is the same tree, up to its places, if it
goes not too deep and its offsets fit into spans (`source_written`). `Term.IsRead`
says so of the parser for expressions, with any number of levels left; each form of
a term has it if its parts have it.

A longer term need not come back: a string of `Span.limit + 1` letters is read as
the empty string (`source_lettersText`).
-/

namespace PhpScript.Written

open Parse Grammar Piece

/-! ## Names and variables -/

theorem bare_varOf {t : Token} {w : Word} (ht : t.sig = (Sign.var w).sig) :
    (varOf t).bare = varNode w := by
  have htext : t.text = String.ofList ('$' :: w.text.toList) := congrArg Prod.snd ht
  rw [varOf, varNameOf, htext, Node.bare, varNode]
  simp

theorem skipType_reads : Reads skipType [] (· = .varName) True fun _ => True := by
  -- A variable is no part of a type, so the type has no parts.
  have hstop : Reads typePart [] (· = .varName) True (· = .stop) := by
    refine Reads.peek fun t ⟨k, hk, ht⟩ _ => ?_
    subst hk
    rw [ht]
    exact .pure rfl
  refine .refuse (by rintro _ rfl; simp) ?_
  refine (Reads.gather fun bound _ => .gatherFor_stop hstop bound).bind_last fun _ _ => ?_
  exact .guard (by simp) (.pure trivial)

theorem skipReturnType_reads : Reads skipReturnType [] (· ≠ .symbol .colon) True fun _ => True :=
  .refuse (fun _ hk => hk) (.pure trivial)

/-- What may follow an item in a list in parentheses. -/
abbrev AfterItem (k : TokenKind) : Prop := k = .symbol .comma ∨ k = .symbol .closeParen

theorem parameter_reads (w : Word) :
    Reads parameter [(Sign.var w).sig] AfterItem True fun n => n.bare = paramNode w := by
  refine .peek fun _ _ _ => .peek_cons .varName rfl fun t hk _ => ?_
  refine .guard (by rw [hk]; decide) ?_
  refine skipType_reads.bind_right (fun _ _ => ?_) fun _ _ => rfl
  refine .isAt (b := false) (fun _ _ => rfl) (.guard (by simp) ?_)
  refine .isAt (b := false) (fun _ _ => rfl) (.guard (by simp) ?_)
  refine .expect rfl (by simp) fun t ht => ?_
  refine .isAt (b := false) ?_ (.guard (by simp) (.spanFrom fun _ => .pure ?_))
  · rintro _ (rfl | rfl) <;> rfl
  · rw [Node.bare, bare_varOf ht, paramNode]

theorem closureBinding_reads (w : Word) :
    Reads closureBinding [(Sign.var w).sig] AfterItem True fun n => n.bare = varNode w := by
  refine .isAt (b := false) (fun _ _ => rfl) (.guard (by simp) ?_)
  exact .expect rfl (by simp) fun t ht => .pure (bare_varOf ht)

/-- Items in parentheses. -/
theorem parens_reads {item : Parser Node} {xs : List ι} {f : ι → List Piece} {fit : ι → Prop}
    {g : ι → Node}
    (hitem : ∀ x ∈ xs, Reads item (words (f x)) AfterItem (fit x) fun n => n.bare = g x)
    (hf : ∀ x ∈ xs, ∀ k, firstKind (words (f x)) k ≠ .symbol .closeParen) :
    Reads (do
        let _ ← expect (.symbol .openParen)
        let items ← commaListUntil .closeParen item
        let _ ← expect (.symbol .closeParen)
        return items)
      (words (paren (commaList (xs.map f)))) Any (∀ x ∈ xs, fit x)
      fun ns => ns.map Node.bare = xs.map g := by
  rw [words_paren, words_commaList]
  refine .expect rfl (by simp) fun _ _ => ?_
  refine (Reads.commaListUntil (by simp) hitem hf).bind_left (fun ns hns => ?_) fun _ _ => rfl
  exact .expect rfl (by simp) fun _ _ => .pure hns

theorem parameterList_reads (names : List Word) :
    Reads parameterList (words (varList names)) Any True
      fun ps => ps.map Node.bare = names.map paramNode :=
  (parens_reads (fun w _ => parameter_reads w) fun w _ k => by simp [Sign.sig, Sign.kind]).congr
    (by simp)

theorem closureBindings_reads (uses : List Word) :
    Reads closureBindings (words (bindings uses)) (· = .symbol .openBrace) True
      fun us => us.map Node.bare = uses.map varNode := by
  cases uses with
  | nil => exact .refuse (by rintro _ rfl; simp [bindings]) (.pure rfl)
  | cons w uses =>
    refine .accept rfl (by simp) ?_
    exact ((parens_reads (fun w _ => closureBinding_reads w)
      fun w _ k => by simp [Sign.sig, Sign.kind]).congr (by simp)).before fun _ _ => trivial

theorem name_reads (x : Name) :
    Reads name [(Sign.word x.toWord).sig] (· ≠ .symbol .backslash) True
      fun n => n.bare = x.node := by
  have hkind : (Sign.word x.toWord).sig.1 = .identifier := x.isIdentifier
  -- No backslash follows the first part, so it is the last.
  have hpart : Reads namePart [(Sign.word x.toWord).sig] (· ≠ .symbol .backslash) True
      fun r => ∃ part, r = .last part ∧ part = x.text := by
    refine .peek_cons .identifier hkind fun t hk htext => ?_
    refine .guard (by simp [hk, TokenKind.isIdentifierLike]) ?_
    refine .advance (by simp [hkind]) fun _ _ => ?_
    refine .isAt (b := false) (by simp) (.anyFollowing fun _ => ?_)
    exact .pure ⟨t.text, rfl, htext.trans String.ofList_toList⟩
  refine .peek fun _ _ _ => .refuse (by simp [hkind]) ?_
  refine (Reads.gather fun bound _ => .gatherFor_last hpart bound).bind_last fun parts hparts => ?_
  obtain ⟨_, rfl, rfl⟩ := hparts
  exact .spanFrom fun _ => .pure (by rw [Node.bare, Name.node])

/-! ## Terms that are read -/

/-- The parser for expressions reads the term before any token that ends it, if
    there are enough levels left. -/
def Term.IsRead (t : Term) : Prop :=
  ∀ L, Reads (ofLevels L).expression t.words (isClosing ·) (t.levels + 1 ≤ L)
    fun n => n.bare = t.node

theorem ne_of_beginsTerm {k kind : TokenKind} (hk : beginsTerm k)
    (hkind : beginsTerm kind = false) : k ≠ kind := by
  rintro rfl
  cases hkind.symm.trans hk

theorem Term.firstKind_ne (t : Term) {kind : TokenKind} (hkind : beginsTerm kind = false)
    (k : TokenKind) : firstKind t.words k ≠ kind :=
  ne_of_beginsTerm (t.begins k) hkind

theorem isClosing_of_afterItem {k : TokenKind} (h : AfterItem k) : isClosing k := by
  rcases h with rfl | rfl <;> rfl

section

variable {t : Term} {args : List Term} {L : Nat} {block : Parser (List Node)}

theorem argument_reads (ht : t.IsRead) :
    Reads (argument (ofLevels L).expression) t.words AfterItem (t.levels + 1 ≤ L)
      fun n => n.bare = .argument t.node .unknown := by
  -- A colon after the first token would make it the label of the argument.
  have hcolon : ∀ w ∈ t.words.tail, w.1 ≠ .symbol .colon := by
    intro w hw
    obtain ⟨s, -, rfl⟩ := List.mem_map.1 (List.mem_of_mem_tail hw)
    exact s.kind_ne_symbol rfl
  refine .peek fun _ _ _ => .peekFollowing t.words_ne_nil fun kind ⟨k, hk, hkind⟩ => .guard ?_ ?_
  · have : k ≠ .symbol .colon := by rcases hk with rfl | rfl <;> simp
    simp [hkind, firstKind_ne hcolon this]
  · refine .isAt (b := false) (fun k _ => by simpa using t.firstKind_ne rfl k) (.guard (by simp) ?_)
    refine .peek fun _ _ _ => ((ht L).before fun _ => isClosing_of_afterItem).bind_last
      fun n hn => .spanFrom fun _ => .pure ?_
    rw [Node.bare, hn]

theorem arguments_reads (hargs : ∀ a ∈ args, a.IsRead) :
    Reads (arguments (ofLevels L).expression) (words (paren (commaList (argPieces args)))) Any
      (argLevels args ≤ L) fun ns => ns.map Node.bare = argNodes args := by
  rw [argPieces_eq_map, argNodes_eq_map]
  exact (parens_reads (fun a ha => argument_reads (hargs a ha))
    fun a _ => a.firstKind_ne rfl).congr argLevels_le.symm

/-- An expression in parentheses. -/
theorem group_reads {ps : List Piece} {fits : Prop} {Q : Node → Prop}
    (h : Reads (ofLevels L).expression (words ps) (isClosing ·) fits Q) :
    Reads (primary (ofLevels L).expression block) (words (paren ps)) Any fits Q := by
  rw [words_paren]
  refine .peek_cons (.symbol .openParen) rfl fun token hk _ => ?_
  simp only [hk]
  refine .advance (by simp) fun _ _ => ?_
  refine h.bind_left (fun n hn => ?_) fun _ _ => rfl
  exact .expect rfl (by simp) fun _ _ => .pure hn

theorem group_operand {ps : List Piece} {fits : Prop} {Q : Node → Prop}
    (h : Reads (ofLevels L).expression (words ps) (isClosing ·) fits Q) :
    Reads (ofLevels L).postfixExpression (words (paren ps)) (isEnding ·) fits Q :=
  operand_of_primary (fun _ => isPostfix_of_isEnding) ((group_reads h).before fun _ _ => trivial)

theorem group_expression {ps : List Piece} {n : Nat} {Q : Node → Prop}
    (h : ∀ L, Reads (ofLevels L).expression (words ps) (isClosing ·) (n ≤ L) Q) :
    Reads (ofLevels L).expression (words (paren ps)) (isClosing ·) (n + 1 ≤ L) Q :=
  expression_of_operand (fun _ => rfl) fun L => (group_operand (h L)).before
    fun _ => isEnding_of_isClosing

/-! ## Accesses and calls -/

section

variable {base b : Node} {start : Span}

theorem indexLink_reads {key : Term} (hb : base.bare = b) (hkey : key.IsRead) :
    Reads (postfixLink (ofLevels L).expression base start)
      (words (mark .openBracket :: (key.pieces ++ [mark .closeBracket]))) Any (key.levels + 1 ≤ L)
      fun n => n.bare = .index b (some key.node) .unknown := by
  rw [words_sign, words_append]
  exact indexLink_of_key hb (key.firstKind_ne rfl) (hkey L)

theorem memberLink_reads (label : Word) (hb : base.bare = b) :
    Reads (postfixLink (ofLevels L).expression base start)
      (words [mark .arrow, .sign (.word label)]) (· ≠ .symbol .openParen) (0 ≤ L)
      fun n => n.bare = .member b (.identifier label.text .unknown) .unknown := by
  have hlabel : (Sign.word label).sig.1.isIdentifierLike := label.isIdentifierLike_kind
  have htext : (Sign.word label).sig.2 = label.text := String.ofList_toList
  rw [← htext]
  exact (memberLink_of_label hb hlabel).zero_le

theorem methodLink_reads (label : Word) (hb : base.bare = b) (hargs : ∀ a ∈ args, a.IsRead) :
    Reads (postfixLink (ofLevels L).expression base start)
      (words (mark .arrow :: .sign (.word label) :: paren (commaList (argPieces args)))) Any
      (argLevels args ≤ L) fun n =>
        n.bare = .methodCall b (.identifier label.text .unknown) (argNodes args) .unknown := by
  have hlabel : (Sign.word label).sig.1.isIdentifierLike := label.isIdentifierLike_kind
  have htext : (Sign.word label).sig.2 = label.text := String.ofList_toList
  rw [← htext]
  exact methodLink_of_arguments hb hlabel (fun _ => rfl) (arguments_reads hargs)

theorem callLink_reads (hb : base.bare = b) (hargs : ∀ a ∈ args, a.IsRead) :
    Reads (postfixLink (ofLevels L).expression base start)
      (words (paren (commaList (argPieces args)))) Any (argLevels args ≤ L)
      fun n => n.bare = .functionCall b (argNodes args) .unknown :=
  callLink_of_arguments hb (fun _ => rfl) (arguments_reads hargs)

end

theorem unaryOperator?_of_beginsTerm {k : TokenKind} (h : beginsTerm k) :
    unaryOperator? k = none := by
  unfold unaryOperator?
  split <;> first | rfl | cases h

theorem Term.isRead_of_operand
    (h : ∀ L, Reads (ofLevels L).postfixExpression t.words (isClosing ·) (t.levels ≤ L)
      fun n => n.bare = t.node) : t.IsRead :=
  fun _ => expression_of_operand (fun k => unaryOperator?_of_beginsTerm (t.begins k)) h

theorem Place.operand_reads {p : Place} (h : ∀ x ∈ p.parts, x.IsRead) :
    Reads (ofLevels L).postfixExpression (words p.pieces) (isEnding ·) (p.levels ≤ L)
      fun n => n.bare = p.node := by
  have hend : ∀ k, isEnding k → isPostfix k = false := fun _ => isPostfix_of_isEnding
  cases p with
  | var name =>
    refine operand_of_primary hend (Reads.zero_le ?_)
    refine .peek_cons .varName rfl fun token hk _ => ?_
    simp only [hk]
    exact .advance (by simp [Sign.sig, Sign.kind]) fun token htoken => .pure (bare_varOf htoken)
  | index base key =>
    rw [Place.parts, List.forall_mem_cons, List.forall_mem_singleton] at h
    rw [Place.pieces, words_append, Place.levels, Place.node]
    exact operand_of_link (fun _ => rfl) hend (group_reads (h.1 _)) (fun _ => trivial)
      fun _ _ hb _ => (indexLink_reads hb h.2).before fun _ _ => trivial
  | member base label =>
    rw [Place.parts, List.forall_mem_singleton] at h
    have hlevels : base.levels + 1 = max (base.levels + 1) (0 + 1) := by omega
    rw [Place.pieces, words_append, Place.levels, hlevels, Place.node]
    refine operand_of_link (fun _ => rfl) hend (group_reads (h _)) (fun _ => trivial)
      fun _ _ hb _ => (memberLink_reads label hb).before ?_
    -- No call follows, which would take the label for that of a method.
    rintro _ hk rfl
    cases hk

theorem isRead_place {p : Place} (h : ∀ x ∈ p.parts, x.IsRead) : (Term.place p).IsRead :=
  Term.isRead_of_operand fun _ => (Place.operand_reads h).before fun _ => isEnding_of_isClosing

theorem isRead_methodCall (label : Word) (ht : t.IsRead) (hargs : ∀ a ∈ args, a.IsRead) :
    (Term.methodCall t label args).IsRead := by
  refine Term.isRead_of_operand fun L => ?_
  rw [Term.words, Term.pieces, words_append, Term.levels, Term.node]
  exact operand_of_link (fun _ => rfl) (fun _ => isPostfix_of_isClosing) (group_reads (ht _))
    (fun _ => trivial) fun _ _ hb _ => (methodLink_reads label hb hargs).before fun _ _ => trivial

theorem isRead_callTerm (ht : t.IsRead) (hargs : ∀ a ∈ args, a.IsRead) :
    (Term.callTerm t args).IsRead := by
  refine Term.isRead_of_operand fun L => ?_
  rw [Term.words, Term.pieces, words_append, Term.levels, Term.node]
  exact operand_of_link (fun _ => rfl) (fun _ => isPostfix_of_isClosing) (group_reads (ht _))
    (fun _ => trivial) fun _ _ hb _ => (callLink_reads hb hargs).before fun _ _ => trivial

theorem isRead_call (name : Name) (hargs : ∀ a ∈ args, a.IsRead) :
    (Term.call name args).IsRead := by
  refine Term.isRead_of_operand fun L => ?_
  have hlevels : argLevels args + 1 = max 0 (argLevels args + 1) := by omega
  rw [Term.words, Term.pieces, Term.levels, hlevels, Term.node]
  have hbase : Reads (primary (ofLevels L).expression (Parse.block (ofLevels L).statement))
      [(Sign.word name.toWord).sig] (· = .symbol .openParen) (0 ≤ L)
      fun n => n.bare = name.node := by
    refine .zero_le (.peek_cons .identifier name.isIdentifier fun token hk _ => ?_)
    simp only [hk]
    refine ((name_reads name).before ?_).bind_last fun n hn => ?_
    · rintro _ rfl
      simp
    · exact .isAt (b := true) (by simp) (.isAt (b := false) (by rintro _ rfl; rfl) (.pure hn))
  exact operand_of_link (fun _ => rfl) (fun _ => isPostfix_of_isClosing) hbase
    (fun _ => rfl) fun _ _ hb _ => (callLink_reads hb hargs).before fun _ _ => trivial

/-! ## Expressions without operators -/

theorem Term.isRead_of_primary
    (h : ∀ L, Reads (primary (ofLevels L).expression (Parse.block (ofLevels L).statement)) t.words
      (isClosing ·) (t.levels ≤ L) fun n => n.bare = t.node) : t.IsRead :=
  Term.isRead_of_operand fun L => operand_of_primary
    (fun _ => isPostfix_of_isClosing) (h L)

theorem isRead_integer {value : Nat} (hvalue : value ≤ Literal.maxInteger) :
    (Term.integer value hvalue).IsRead := by
  refine Term.isRead_of_primary fun L => .zero_le (.peek_cons .integer rfl ?_)
  intro token hk (htext : token.text = String.ofList (Nat.toDigits 10 value))
  simp only [hk, htext, Literal.integer?_toDigits hvalue]
  refine .advance (by simp [Sign.sig, Sign.kind]) fun _ _ => .pure ?_
  rw [numeralNode, Node.bare, Term.node]

theorem isRead_string (value : String) : (Term.string value).IsRead := by
  refine Term.isRead_of_primary fun L => .zero_le (.peek_cons .singleQuoted rfl ?_)
  intro token hk
    (htext : token.text = String.ofList ('\'' :: quotedChars value.toList ++ ['\'']))
  simp only [hk, htext, Literal.singleQuoted_quoted]
  refine .advance (by simp [Sign.sig, Sign.kind]) fun _ _ => .pure ?_
  rw [Node.bare, Term.node]

theorem isRead_constant (name : Name) : (Term.constant name).IsRead := by
  refine Term.isRead_of_primary fun L => .zero_le <|
    .peek_cons .identifier name.isIdentifier fun token hk _ => ?_
  simp only [hk]
  refine ((name_reads name).before ?_).bind_last fun n hn => ?_
  · rintro _ hk rfl
    cases hk
  · have hnext {kind : TokenKind} (hkind : isClosing kind = false) :
        ∀ k, isClosing k → (firstKind [] k == kind) = false := by
      intro k hk
      rw [firstKind_nil, beq_eq_false_iff_ne]
      rintro rfl
      cases hkind.symm.trans hk
    refine .isAt (b := false) (hnext rfl) (.isAt (b := false) (hnext rfl) (.pure ?_))
    rw [Node.bare, hn, Term.node]

theorem isRead_construct (cls : Name) (hargs : ∀ a ∈ args, a.IsRead) :
    (Term.construct cls args).IsRead := by
  refine Term.isRead_of_primary fun L => .peek_cons (.keyword .newKw) rfl fun token hk _ => ?_
  simp only [hk]
  refine .expect rfl (by simp) fun _ _ => ?_
  have hcls : Reads (constructedClass (ofLevels L).expression) [(Sign.word cls.toWord).sig]
      (· = .symbol .openParen) True fun n => n.bare = cls.node := by
    refine .peek_cons .identifier cls.isIdentifier fun token hk _ => ?_
    simp only [hk]
    refine (name_reads cls).before ?_
    rintro _ rfl
    simp
  refine hcls.bind_right (fun n hn => ?_) fun _ _ => rfl
  refine .isAt (b := true) (fun _ _ => rfl) ?_
  refine ((arguments_reads hargs).before fun _ _ => trivial).bind_last fun ns hns => ?_
  refine .spanFrom fun _ => .pure ?_
  rw [Node.bare, hn, Node.bareList_eq_map, hns, Term.node]

/-! ## Arrays -/

theorem arrayItem_reads (ht : t.IsRead) :
    Reads (arrayItem (ofLevels L).expression) t.words (· = .symbol .comma) (t.levels + 1 ≤ L)
      fun n => n.bare = .arrayItem none t.node .unknown := by
  refine .peek fun _ _ _ => ?_
  refine .isAt (b := false) (fun k _ => by simpa using t.firstKind_ne rfl k) (.guard (by simp) ?_)
  refine .isAt (b := false) (fun k _ => by simpa using t.firstKind_ne rfl k) (.guard (by simp) ?_)
  refine ((ht L).before (by rintro _ rfl; rfl)).bind_last fun n hn => ?_
  refine .refuse (by rintro _ rfl; simp) (.spanFrom fun _ => .pure ?_)
  rw [Node.bare, hn, Node.bareOption_eq_map, Option.map_none]

theorem keyedItem_reads {key : Term} (hkey : key.IsRead) (ht : t.IsRead) :
    Reads (arrayItem (ofLevels L).expression)
      (words (paren key.pieces ++ blank :: mark .doubleArrow :: blank :: paren t.pieces))
      (· = .symbol .comma) (max (key.levels + 2) (t.levels + 2) ≤ L)
      fun n => n.bare = .arrayItem (some key.node) t.node .unknown := by
  rw [words_append]
  refine .peek fun _ _ _ => ?_
  refine .isAt (b := false) (fun _ _ => rfl) (.guard (by simp) ?_)
  refine .isAt (b := false) (fun _ _ => rfl) (.guard (by simp) ?_)
  refine ((group_expression hkey).bind (fun first hfirst => ?_) fun _ _ => rfl).congr
    Nat.max_le.symm
  refine .accept rfl (by simp) ?_
  refine ((group_expression ht).before (by rintro _ rfl; rfl)).bind_last fun value hvalue => ?_
  refine .spanFrom fun _ => .pure ?_
  rw [Node.bare, hvalue, Node.bareOption_eq_map, Option.map_some, hfirst]

/-- A slot that holds something, with the comma after it. -/
theorem arraySlot_of_item {expression : Parser Node} {ws : List Sig} {fits : Prop} {n : Node}
    (hws : ∀ k, beginsTerm (firstKind ws k))
    (h : Reads (arrayItem expression) ws (· = .symbol .comma) fits fun item => item.bare = n) :
    Reads (arraySlot expression .closeBracket) (ws ++ [Reads.comma]) Any fits
      fun r => ∃ slot, r = .more slot ∧ slot.map Node.bare = some n := by
  have hfirst {kind : TokenKind} (hkind : beginsTerm kind = false) :
      ∀ k, Any k → firstKind (ws ++ [Reads.comma]) k ≠ kind := by
    intro k _
    rw [firstKind_append]
    exact ne_of_beginsTerm (hws _) hkind
  refine .refuse (hfirst rfl) (.refuse (hfirst rfl) ?_)
  refine h.bind_left (fun item hitem => ?_) fun _ _ => rfl
  exact .accept rfl (by simp) (.pure ⟨some item, rfl, congrArg some hitem⟩)

theorem arraySlot_reads {slot : Slot} (h : ∀ x ∈ slot.parts, x.IsRead) :
    Reads (arraySlot (ofLevels L).expression .closeBracket) (words slot.pieces) Any
      (slot.levels ≤ L) fun r => ∃ item, r = .more item ∧ item.map Node.bare = slot.node := by
  cases slot with
  | empty =>
    refine .refuse (by simp [Slot.pieces, Sign.sig, Sign.kind]) ?_
    exact .accept rfl (by simp) (.zero_le (.pure ⟨none, rfl, rfl⟩))
  | item value =>
    rw [Slot.parts, List.forall_mem_singleton] at h
    rw [Slot.pieces, words_append]
    exact arraySlot_of_item value.begins (arrayItem_reads h)
  | keyed key value =>
    rw [Slot.parts, List.forall_mem_cons, List.forall_mem_singleton] at h
    have hwords : words (Slot.keyed key value).pieces =
        words (paren key.pieces ++ blank :: mark .doubleArrow :: blank :: paren value.pieces) ++
          [Reads.comma] := by
      simp [Slot.pieces]
      rfl
    rw [hwords]
    exact arraySlot_of_item (fun _ => rfl) (keyedItem_reads h.1 h.2)

/-- An array ends with its bracket, so anything may follow. -/
theorem array_reads {slots : List Slot} (h : ∀ slot ∈ slots, ∀ x ∈ slot.parts, x.IsRead) :
    Reads (primary (ofLevels L).expression block) (Term.array slots).words Any
      (slotLevels slots ≤ L) fun n => n.bare = (Term.array slots).node := by
  rw [Term.words, Term.pieces, words_sign, words_append, words_flatten, slotPieces_eq_map,
    List.flatMap_map, Term.node, slotNodes_eq_map]
  refine .peek_cons (.symbol .openBracket) rfl fun token hk _ => ?_
  simp only [hk]
  refine .expect rfl (by simp) fun _ _ => ?_
  have hstop : Reads (arraySlot (ofLevels L).expression .closeBracket) (words [mark .closeBracket])
      Any True (· = .stop) := .accept rfl (by simp) (.pure rfl)
  refine ((Reads.gather_more (fun slot hslot => arraySlot_reads (h slot hslot)) ?_ hstop).bind_last
    fun items hitems => .spanFrom fun _ => .pure ?_).congr slotLevels_le.symm
  · intro slot _
    cases slot <;> simp
  · rw [Node.bare, Node.bareSlots_eq_map, hitems]

theorem isRead_array {slots : List Slot} (h : ∀ slot ∈ slots, ∀ x ∈ slot.parts, x.IsRead) :
    (Term.array slots).IsRead :=
  Term.isRead_of_primary fun _ => (array_reads h).before fun _ _ => trivial

/-! ## Functions -/

theorem refuseByRefReturn_reads {follow : TokenKind → Prop} {ws : List Sig}
    {g : Unit → Parser Node} {fits : Prop} {Q : Node → Prop}
    (hws : ∀ k, firstKind ws k ≠ .symbol .ampersand) (h : Reads (g ()) ws follow fits Q) :
    Reads (refuseByRefReturn >>= g) ws follow fits Q := by
  rw [refuseByRefReturn, bind_assoc]
  exact .isAt (b := false) (fun k _ => by simpa using hws k) h

theorem isRead_arrowFunction (params : List Word) (ht : t.IsRead) :
    (Term.arrowFunction params t).IsRead := by
  refine Term.isRead_of_primary fun L => ?_
  rw [Term.words, Term.pieces, words_sign, words_append]
  refine .peek_cons (.keyword .fnKw) rfl fun token hk _ => ?_
  simp only [hk]
  refine .expect rfl (by simp) fun _ _ => refuseByRefReturn_reads (fun _ => by simp [varList]) ?_
  refine (parameterList_reads params).bind_right (fun ps hps => ?_) fun _ _ => trivial
  refine skipReturnType_reads.bind_right (fun _ _ => ?_) fun _ _ => ?_
  · refine .expect rfl (by simp) fun _ _ => (ht L).bind_last fun body hbody => ?_
    refine .spanFrom fun _ => .pure ?_
    rw [Node.bare, Node.bareList_eq_map, hps, hbody, Term.node]
  · simp [Sign.sig, Sign.kind]

/-! ## Statements -/

theorem terminator_reads : Reads terminator (words [mark .semicolon]) Any True fun _ => True :=
  .accept rfl (by simp) (.pure trivial)

section

variable {expression statement : Parser Node} {ws : List Sig} {fits : Prop} {Q : Node → Prop}

theorem expressionStatement_reads {start : Span} (h : Reads expression ws (isClosing ·) fits Q) :
    Reads (expressionStatement expression start) (ws ++ words [mark .semicolon]) Any fits
      fun n => ∃ e span, n = .expression e span ∧ Q e := by
  refine h.bind_left (fun e he => ?_) fun _ _ => rfl
  exact terminator_reads.bind_last fun _ _ => .spanFrom fun span => .pure ⟨e, span, rfl, he⟩

/-- The tokens begin as a term does. -/
structure BeginsAsTerm (ws : List Sig) : Prop where
  begins : ∀ k, beginsTerm (firstKind ws k)
  /-- The keyword of a closure is followed by its parameters. -/
  paren : ∀ k next, firstKind ws k = .keyword .functionKw →
    firstKind ws.tail next = .symbol .openParen

/-- What begins as a term is read as an expression, not as another statement. -/
theorem statementBody_reads (hws : BeginsAsTerm ws) (h : Reads expression ws (isClosing ·) fits Q) :
    Reads (statementBody expression statement) (ws ++ words [mark .semicolon]) Any fits
      fun n => ∃ e span, n = .expression e span ∧ Q e := by
  have hne : ws ≠ [] := by
    rintro rfl
    cases hws.begins .endOfFile
  refine .peek fun token ⟨k, _, hk⟩ _ => ?_
  rw [firstKind_append] at hk
  have hb : beginsTerm token.kind := hk ▸ hws.begins _
  simp only
  split
  case h_9 hfunction =>
    -- The keyword begins a closure and not a declaration, as a parenthesis
    -- follows it.
    refine .peekFollowing (by simp) fun kind ⟨k, _, hkind⟩ => ?_
    rw [List.tail_append_of_ne_nil hne, firstKind_append,
      hws.paren _ _ (hk.symm.trans hfunction)] at hkind
    rw [hkind]
    exact expressionStatement_reads h
  -- The other keywords that begin statements begin no term.
  all_goals first
    | exact expressionStatement_reads h
    | next h =>
      rw [h] at hb
      cases hb

end

theorem Term.beginsAsTerm (t : Term) : BeginsAsTerm t.words :=
  ⟨t.begins, fun _ next h => t.firstKind_tail h next⟩

theorem returnStatement_reads (ht : t.IsRead) {start : Span} {w : Sig} (hw : w.1 ≠ .endOfFile) :
    Reads (returnStatement (ofLevels L).expression start)
      (w :: words (t.pieces ++ [mark .semicolon])) Any (t.levels + 1 ≤ L)
      fun n => n.bare = .returns (some t.node) .unknown := by
  have hfirst {kind : TokenKind} (hkind : beginsTerm kind = false) :
      ∀ k, Any k → (firstKind (t.words ++ words [mark .semicolon]) k == kind) = false := by
    intro k _
    rw [firstKind_append, beq_eq_false_iff_ne]
    exact t.firstKind_ne hkind _
  rw [words_append]
  refine .advance hw fun _ _ => .isAt (b := false) (hfirst rfl) (.isAt (b := false) (hfirst rfl) ?_)
  have hsome := (ht L).map (g := some) (Q := fun n => n.map Node.bare = some t.node)
    fun n hn => congrArg some hn
  refine hsome.bind_left (fun value hvalue => ?_) fun _ _ => rfl
  refine terminator_reads.bind_last fun _ _ => .spanFrom fun _ => .pure ?_
  rw [Node.bare, Node.bareOption_eq_map, hvalue]

theorem line_reads {line : Line} (h : line.part.IsRead) :
    Reads (ofLevels L).statement (words line.pieces) Any (line.levels ≤ L)
      fun n => n.bare = line.node := by
  cases line with
  | expression expr =>
    rw [Line.pieces, words_blank, words_append]
    refine statement_of_body fun L =>
      (statementBody_reads expr.beginsAsTerm (h L)).mono fun n hn => ?_
    obtain ⟨e, span, rfl, he⟩ := hn
    rw [Node.bare, he, Line.part, Line.node]
  | returns value =>
    refine statement_of_body fun L => .peek_cons (.keyword .returnKw) rfl fun token hk _ => ?_
    simp only [hk]
    exact returnStatement_reads h (by simp [Sign.sig, Sign.kind])

theorem Line.firstKind_ne (line : Line) {kind : TokenKind} (hkind : beginsTerm kind = false)
    (hreturn : kind ≠ .keyword .returnKw) (k : TokenKind) :
    firstKind (words line.pieces) k ≠ kind := by
  cases line with
  | expression expr =>
    rw [Line.pieces, words_blank, words_append, firstKind_append]
    exact expr.firstKind_ne hkind _
  | returns value => exact hreturn.symm

/-- The statements of a closure. -/
theorem block_reads {lines : List Line} (h : ∀ line ∈ lines, line.part.IsRead) :
    Reads (Parse.block (ofLevels L).statement)
      (words (mark .openBrace :: ((linePieces lines).flatten ++ [blank, mark .closeBrace]))) Any
      (lineLevels lines ≤ L) fun ns => ns.map Node.bare = lineNodes lines := by
  rw [words_sign, words_append, words_flatten, linePieces_eq_map, List.flatMap_map]
  refine .expect rfl (by simp) fun _ _ => ?_
  have hmore : ∀ line ∈ lines, Reads (statementUntil .closeBrace (ofLevels L).statement)
      (words line.pieces) Any (line.levels ≤ L)
      fun r => ∃ n, r = .more n ∧ n.map Node.bare = some line.node := by
    intro line hline
    have hfirst {kind : TokenKind} (hkind : beginsTerm kind = false)
        (hreturn : kind ≠ .keyword .returnKw) :
        ∀ k, Any k → (firstKind (words line.pieces) k == kind) = false :=
      fun k _ => beq_eq_false_iff_ne.2 (line.firstKind_ne hkind hreturn k)
    refine .isAt (b := false) (hfirst rfl (by simp)) ?_
    refine .isAt (b := false) (hfirst rfl (by simp)) (.guard (by simp) ?_)
    refine .refuse (fun k _ => line.firstKind_ne rfl (by simp) k) ?_
    exact (line_reads (h line hline)).bind_pure fun n hn => ⟨some n, rfl, congrArg some hn⟩
  -- The brace ends the statements and is left for the block.
  have hstop : Reads (statementUntil .closeBrace (ofLevels L).statement) []
      (· = .symbol .closeBrace) True (· = .stop) := .isAt (b := true) (by simp) (.pure rfl)
  have hall := Reads.gather_more hmore (fun line _ => by cases line <;> simp) hstop
  rw [List.append_nil] at hall
  refine (hall.bind_left (fun slots hslots => ?_) fun _ _ => rfl).congr lineLevels_le.symm
  refine .expect rfl (by simp) fun _ _ => .pure ?_
  rw [Node.map_bare_filterMap, hslots, lineNodes_eq_map]
  simp [List.filterMap_map]

theorem isRead_closure (params uses : List Word) {lines : List Line}
    (h : ∀ line ∈ lines, line.part.IsRead) : (Term.closure params uses lines).IsRead := by
  refine Term.isRead_of_primary fun L => ?_
  rw [Term.words, Term.pieces, words_sign, words_append, words_append, words_blank]
  refine .peek_cons (.keyword .functionKw) rfl fun token hk _ => ?_
  simp only [hk]
  refine .expect rfl (by simp) fun _ _ => refuseByRefReturn_reads (fun _ => by simp [varList]) ?_
  refine (parameterList_reads params).bind_right (fun ps hps => ?_) fun _ _ => trivial
  refine (closureBindings_reads uses).bind_right (fun us hus => ?_) fun _ _ => rfl
  refine skipReturnType_reads.bind_right (fun _ _ => ?_) fun _ _ => ?_
  · refine ((block_reads h).before fun _ _ => trivial).bind_last fun body hbody => ?_
    refine .spanFrom fun _ => .pure ?_
    rw [Node.bare, Node.bareList_eq_map, Node.bareList_eq_map, Node.bareList_eq_map, hps, hus,
      hbody, Term.node]
  · simp [Sign.sig, Sign.kind]

/-! ## Operators -/

/-- A place before an assignment can be assigned to. -/
theorem target_reads {target : Place} (h : ∀ x ∈ target.parts, x.IsRead) :
    Reads ((ofLevels L).binary 0) (words target.pieces)
      (fun k => k = .symbol .equals ∨ k = .symbol .plusEquals) (target.levels ≤ L)
      fun n => n.isAssignable ∧ n.bare = target.node := by
  refine binary_of_unary ?_ (unary_of_operand (fun k => ?_) ?_)
  · rintro _ (rfl | rfl) <;> rfl
  · rcases target.firstKind_words k with hk | hk <;> rw [hk] <;> rfl
  · refine ((Place.operand_reads h).before ?_).mono fun n hn => ⟨?_, hn⟩
    · rintro _ (rfl | rfl) <;> rfl
    · rw [← Node.isAssignable_bare, hn]
      cases target <;> simp [varNode, Node.isAssignable]

/-- Both ways to assign differ only in their operator and the node that they make. -/
theorem assignment_reads {target : Place} {op : Sig} {node : Node → Node → Span → Node}
    (hp : ∀ x ∈ target.parts, x.IsRead) (ht : t.IsRead)
    (hop : assignment? op.1 = some fun a b start => do return node a b (← spanFrom start))
    (hmark : op.1 = .symbol .equals ∨ op.1 = .symbol .plusEquals)
    (hbare : ∀ a b span, (node a b span).bare = node a.bare b.bare .unknown) :
    Reads (ofLevels L).expression (words target.pieces ++ op :: words (paren t.pieces))
      (isClosing ·) (max target.levels (t.levels + 2) + 1 ≤ L)
      fun n => n.bare = node target.node t.node .unknown := by
  have hend : op.1 ≠ .endOfFile := by rcases hmark with h | h <;> simp [h]
  refine expression_of_assignment fun L => assignment_of_target hop hend (target_reads hp) hmark
    (group_expression ht) fun a b start ha hb => .spanFrom fun _ => .pure ?_
  rw [hbare, ha, hb]

theorem isRead_assign {target : Place} (hp : ∀ x ∈ target.parts, x.IsRead) (ht : t.IsRead) :
    (Term.assign target t).IsRead := by
  intro L
  rw [Term.words, Term.pieces, words_append]
  exact assignment_reads hp ht rfl (.inl rfl) fun _ _ _ => by rw [Node.bare]

theorem isRead_addAssign {target : Place} (hp : ∀ x ∈ target.parts, x.IsRead) (ht : t.IsRead) :
    (Term.addAssign target t).IsRead := by
  intro L
  rw [Term.words, Term.pieces, words_append]
  exact assignment_reads hp ht rfl (.inr rfl) fun _ _ _ => by rw [Node.bare]

/-- Two operands with a concatenation between them. -/
theorem concat_reads {ws₁ ws₂ : List Sig} {n₁ n₂ : Nat} {l r : Node} {text : String}
    (hws₁ : ∀ k, unaryOperator? (firstKind ws₁ k) = none)
    (hws₂ : ∀ k, unaryOperator? (firstKind ws₂ k) = none)
    (hl : ∀ L, Reads (ofLevels L).postfixExpression ws₁ (isEnding ·) (n₁ ≤ L) fun n => n.bare = l)
    (hr : ∀ L, Reads (ofLevels L).postfixExpression ws₂ (isEnding ·) (n₂ ≤ L) fun n => n.bare = r) :
    Reads (ofLevels L).expression (ws₁ ++ (.symbol .dot, text) :: ws₂) (isClosing ·)
      (max n₁ (n₂ + 1) + 1 ≤ L) fun n => n.bare = .concat l r .unknown := by
  refine expression_of_assignment fun L =>
    assignment_of_binary (fun _ => assignment?_of_isClosing) ?_
  have hright : ∀ L, Reads ((ofLevels L).binary 6) ws₂ (isClosing ·) (n₂ ≤ L) fun n => n.bare = r :=
    fun L => binary_of_unary (fun _ => binaryOperator?_of_isClosing) <|
      unary_of_operand hws₂ ((hr L).before fun _ => isEnding_of_isClosing)
  refine .chain <| .peek fun _ _ _ =>
    ((unary_of_operand hws₁ (hl L)).bind (fun n hn => ?_) fun _ _ => rfl).congr Nat.max_le.symm
  refine (operators_dot (fun _ => binaryOperator?_of_isClosing) hright text n).mono ?_
  rintro _ ⟨right, span, hright, rfl⟩
  rw [Node.bare, hn, hright]

theorem isRead_concat {left : Term} (hl : left.IsRead) (ht : t.IsRead) :
    (Term.concat left t).IsRead := by
  intro L
  rw [Term.words, Term.pieces, words_append]
  exact concat_reads (fun _ => rfl) (fun _ => rfl) (fun L => group_operand (hl L))
    fun L => group_operand (ht L)

end

/-- Every term is read as the tree that is meant by it. -/
theorem Term.isRead (t : Term) : t.IsRead := by
  induction t using Term.induction with
  | step t ih =>
  cases t with
  | place p => exact isRead_place ih
  | integer value hvalue => exact isRead_integer hvalue
  | string value => exact isRead_string value
  | constant name => exact isRead_constant name
  | array slots =>
    exact isRead_array fun slot hslot x hx => ih x (List.mem_flatMap.2 ⟨slot, hslot, hx⟩)
  | methodCall target label args =>
    rw [Term.parts, List.forall_mem_cons] at ih
    exact isRead_methodCall label ih.1 ih.2
  | call name args => exact isRead_call name ih
  | callTerm callee args =>
    rw [Term.parts, List.forall_mem_cons] at ih
    exact isRead_callTerm ih.1 ih.2
  | construct cls args => exact isRead_construct cls ih
  | assign target value =>
    rw [Term.parts, List.forall_mem_cons] at ih
    exact isRead_assign ih.2 ih.1
  | addAssign target value =>
    rw [Term.parts, List.forall_mem_cons] at ih
    exact isRead_addAssign ih.2 ih.1
  | concat left right =>
    rw [Term.parts, List.forall_mem_cons, List.forall_mem_singleton] at ih
    exact isRead_concat ih.1 ih.2
  | arrowFunction params body =>
    rw [Term.parts, List.forall_mem_singleton] at ih
    exact isRead_arrowFunction params ih
  | closure params uses body =>
    exact isRead_closure params uses fun line hline => ih _ (List.mem_map_of_mem hline)

/-! ## Programs -/

theorem topLevel_stops : Reads topLevel [] (· = .endOfFile) True (· = .stop) :=
  .isAt (b := true) (by simp) (.pure rfl)

theorem isAt_bind_eq {c : Cursor} {kind : TokenKind} (h : c.current.kind ≠ kind)
    (g : Bool → Parser β) : (isAt kind >>= g) c = g false c := by
  change g (c.current.kind == kind) c = _
  rw [beq_eq_false_iff_ne.2 h]

theorem accept_bind_eq {c : Cursor} {kind : TokenKind} (h : c.current.kind ≠ kind)
    (g : Bool → Parser β) : (accept kind >>= g) c = g false c := by
  rw [accept, bind_assoc, isAt_bind_eq h]
  simp only [Bool.false_eq_true, if_false, pure_bind]

/-- What begins with another token than these is read as a statement. -/
theorem topLevel_eq {c : Cursor} (heof : c.current.kind ≠ .endOfFile)
    (htag : c.current.kind ≠ .symbol .closeTag)
    (hnamespace : c.current.kind ≠ .keyword .namespaceKw) :
    topLevel c = (Parse.statement >>= fun n => pure (.more (some n))) c := by
  rw [topLevel, isAt_bind_eq heof, if_neg Bool.false_ne_true, accept_bind_eq htag,
    if_neg Bool.false_ne_true, isAt_bind_eq hnamespace, if_neg Bool.false_ne_true]

/-- A program of one statement, which has the levels that are left. -/
theorem program_eq {c : Cursor} {ts : List Token} {eof : Token} (hc : c.rest = ts ++ [eof])
    (heof : eof.kind = .endOfFile) (hk : beginsTerm c.current.kind) {Q : Node → Prop} {fits : Prop}
    (h : Reads (ofLevels (maxDepth - c.depth)).statement (ts.map Token.sig) Any fits Q) :
    (fits ∧ ∃ n after, program c = .ok [n] after ∧ Q n) ∨
      (¬fits ∧ ∃ span after, program c = .error (.tooDeep span) after) := by
  have hgather : program c =
      (gatherFor topLevel c.rest >>= fun ns => pure (ns.filterMap id)) c := rfl
  have htop : topLevel c = ((ofLevels (maxDepth - c.depth)).statement >>= fun n =>
      pure (.more (some n))) c :=
    topLevel_eq (ne_of_beginsTerm hk rfl) (ne_of_beginsTerm hk rfl) (ne_of_beginsTerm hk rfl)
  -- The end of the file is a token too, so there is a first round and a second.
  obtain ⟨t, bound, hbound⟩ : ∃ t bound, c.rest = t :: bound := by
    rw [hc]
    cases ts <;> exact ⟨_, _, rfl⟩
  rw [hgather, hbound]
  by_cases hfits : fits
  · obtain ⟨n, after, hn, hafter, hQ⟩ := h.ok hc rfl trivial hfits
    have hnil : after.rest = [] ++ [eof] := hafter
    obtain ⟨_, last, hlast, -, rfl⟩ :=
      (Reads.gatherFor_stop topLevel_stops bound).ok hnil rfl heof trivial
    refine .inl ⟨hfits, n, last, ?_, hQ⟩
    have hfirst : topLevel c = .ok (.more (some n)) after := by
      rw [htop]
      simp only [Bind.bind, EStateM.bind, hn]
      rfl
    simp only [gatherFor, Bind.bind, EStateM.bind, hfirst, hlast]
    rfl
  · obtain ⟨span, after, hn⟩ := h.tooDeep hc rfl trivial hfits
    refine .inr ⟨hfits, span, after, ?_⟩
    have hfirst : topLevel c = .error (.tooDeep span) after := by
      rw [htop]
      simp only [Bind.bind, EStateM.bind, hn]
    simp only [gatherFor, Bind.bind, EStateM.bind, hfirst]

/-- The program of one expression that is written with pieces. -/
def programText (ps : List Piece) : String :=
  "<?php " ++ String.ofList (ps.flatMap Piece.text) ++ ";"

theorem size_programText (ps : List Piece) :
    (programText ps).utf8ByteSize = Text.byteLength (ps.flatMap Piece.text) + 7 := by
  have hends : "<?php ".utf8ByteSize = 6 ∧ ";".utf8ByteSize = 1 := by decide +kernel
  rw [programText, String.utf8ByteSize_append, String.utf8ByteSize_append, hends.1, hends.2,
    Text.utf8ByteSize_ofList]
  omega

/-- The tokens of pieces between the opening tag and a semicolon. -/
theorem scan_pieces {ps : List Piece} (hps : ps.IsChain Fits)
    (hsize : (programText ps).utf8ByteSize ≤ Span.limit) :
    ∃ ts eof, Token.scan (programText ps) = .ok (ts ++ [⟨.endOfFile, eof, ""⟩]) ∧
      ts.map Token.sig = words ps ++ words [mark .semicolon] := by
  -- The blank after the opening tag and the semicolon are pieces of the text.
  have hchain : (blank :: (ps ++ [mark .semicolon])).IsChain Fits := by
    rw [isChain_blank, isChain_append_mark rfl rfl]
    exact ⟨hps, List.isChain_nil⟩
  have htext : programText ps =
      String.ofList (openTag ++ (blank :: (ps ++ [mark .semicolon])).flatMap Piece.text) := by
    apply String.toList_injective
    rw [programText, String.toList_append, String.toList_append, String.toList_ofList,
      String.toList_ofList, List.flatMap_cons, List.flatMap_append]
    simp [openTag, Piece.text, Sign.text, Symbol.text]
  obtain ⟨ts, eof, hscan, hsig⟩ := Token.scanWide_code hchain
  refine ⟨ts, eof, (Token.scan_eq_scanWide hsize).trans (htext ▸ hscan), ?_⟩
  rw [hsig, ← words_append]
  rfl

/-- Reading on at one expression and a semicolon, with the levels that are left, is
    reading the expression. -/
theorem resume_reads {ws : List Sig} {n : Nat} {Q : Node → Prop} {c : Cursor} {ts : List Token}
    {eof : Span} (hc : c.rest = ts ++ [⟨.endOfFile, eof, ""⟩])
    (hts : ts.map Token.sig = ws ++ words [mark .semicolon]) (hbegins : BeginsAsTerm ws)
    (h : ∀ L, Reads (ofLevels L).expression ws (isClosing ·) (n + 1 ≤ L) Q) :
    (n + 2 ≤ maxDepth - c.depth ∧ ∃ e span, (resume c).1 = .ok [.expression e span] ∧ Q e) ∨
      (maxDepth - c.depth < n + 2 ∧ ∃ span, (resume c).1 = .error (.tooDeep span)) := by
  have hstatement : Reads (ofLevels (maxDepth - c.depth)).statement (ts.map Token.sig) Any
      (n + 2 ≤ maxDepth - c.depth) fun n => ∃ e span, n = .expression e span ∧ Q e := by
    rw [hts]
    exact statement_of_body fun L => statementBody_reads hbegins (h L)
  have hfirst : beginsTerm c.current.kind := by
    change beginsTerm (kindAt c.rest)
    rw [hc, kindAt_append hts, firstKind_append]
    exact hbegins.begins _
  rw [resume]
  rcases program_eq hc rfl hfirst hstatement with
    ⟨hfits, _, after, hprogram, e, span, rfl, he⟩ | ⟨hfits, span, after, hprogram⟩
  · rw [hprogram]
    exact .inl ⟨hfits, e, span, rfl, he⟩
  · rw [hprogram]
    exact .inr ⟨Nat.lt_of_not_le hfits, span, rfl⟩

/-- A program whose tokens are those of one expression is read as the parser for expressions
    reads it. -/
theorem source_of_scan {text : String} {ws : List Sig} {n : Nat} {Q : Node → Prop}
    {ts : List Token} {eof : Span}
    (hscan : Token.scan text = .ok (ts ++ [⟨.endOfFile, eof, ""⟩]))
    (hts : ts.map Token.sig = ws ++ words [mark .semicolon]) (hbegins : BeginsAsTerm ws)
    (h : ∀ L, Reads (ofLevels L).expression ws (isClosing ·) (n + 1 ≤ L) Q) :
    (n + 2 ≤ maxDepth ∧ ∃ e span, source text = .ok [.expression e span] ∧ Q e) ∨
      (maxDepth < n + 2 ∧ ∃ span, source text = .error (.tooDeep span)) := by
  let c : Cursor := { rest := ts ++ [⟨.endOfFile, eof, ""⟩] }
  have hsource : source text = (resume c).1 := by
    rw [source, start, hscan]
    rfl
  rw [hsource]
  exact resume_reads (c := c) rfl hts hbegins h

/-- A program of one expression is read as the parser for expressions reads it. -/
theorem source_reads {ps : List Piece} {n : Nat} {Q : Node → Prop} (hps : ps.IsChain Fits)
    (hbegins : BeginsAsTerm (words ps))
    (h : ∀ L, Reads (ofLevels L).expression (words ps) (isClosing ·) (n + 1 ≤ L) Q)
    (hsize : (programText ps).utf8ByteSize ≤ Span.limit) :
    (n + 2 ≤ maxDepth ∧ ∃ e span, source (programText ps) = .ok [.expression e span] ∧ Q e) ∨
      (maxDepth < n + 2 ∧ ∃ span, source (programText ps) = .error (.tooDeep span)) := by
  obtain ⟨ts, eof, hscan, hts⟩ := scan_pieces hps hsize
  exact source_of_scan hscan hts hbegins h

/-- A program of one term, written with every operand in parentheses, is read as
    the tree that is meant by it, unless it goes too deep. -/
theorem source_written (t : Term)
    (hsize : ("<?php " ++ t.written ++ ";").utf8ByteSize ≤ Span.limit) :
    (t.levels + 2 ≤ maxDepth ∧
      ∃ n span, source ("<?php " ++ t.written ++ ";") = .ok [.expression n span] ∧
        n.bare = t.node) ∨
    (maxDepth < t.levels + 2 ∧
      ∃ span, source ("<?php " ++ t.written ++ ";") = .error (.tooDeep span)) :=
  source_reads t.isChain t.beginsAsTerm t.isRead hsize

theorem isWord_a : isWord "a".toList := rfl

theorem one_le_maxInteger : 1 ≤ Literal.maxInteger := by decide

/-- `$a[1] = 'it\'s'` -/
def assignQuote : Term :=
  .assign (.index (.place (.var ⟨"a", isWord_a⟩)) (.integer 1 one_le_maxInteger)) (.string "it's")

theorem assignQuote_written :
    ("<?php " ++ assignQuote.written ++ ";").utf8ByteSize ≤ Span.limit ∧
      ∃ n span, source ("<?php " ++ assignQuote.written ++ ";") = .ok [.expression n span] ∧
        n.bare = assignQuote.node := by
  have hsize : ("<?php " ++ assignQuote.written ++ ";").utf8ByteSize ≤ Span.limit := by
    decide +kernel
  rcases source_written assignQuote hsize with ⟨-, hread⟩ | ⟨hdeep, -⟩
  · exact ⟨hsize, hread⟩
  · exact absurd hdeep (by decide +kernel)

/-! ## A literal that ends beyond the largest offset -/

/-- A number of letters. -/
def letters (n : Nat) : String := String.ofList (List.replicate n 'a')

/-- A program of these letters in quotes. -/
def lettersText (n : Nat) : String := "<?php " ++ (Term.string (letters n)).written ++ ";"

theorem quotedChars_replicate (n : Nat) :
    quotedChars (List.replicate n 'a') = List.replicate n 'a' := by
  induction n with
  | zero => rfl
  | succ n ih => rw [List.replicate_succ, quotedChars, if_neg (by decide), ih]

section

variable {n : Nat}

theorem text_letters :
    (Sign.string (letters (n + 2))).text =
      ['\'', 'a', 'a'] ++ (List.replicate n 'a' ++ ['\'']) := by
  rw [Sign.text, letters, String.toList_ofList, quotedChars_replicate, List.replicate_succ,
    List.replicate_succ]
  rfl

theorem byteLength_text_letters :
    Text.byteLength (Sign.string (letters (n + 2))).text = n + 4 := by
  rw [text_letters, Text.byteLength_append, Text.byteLength_append,
    Text.byteLength_replicate n rfl]
  exact Nat.add_comm 3 (n + 1)

theorem toList_lettersText :
    (lettersText (n + 2)).toList =
      openTag ++ (' ' :: ((Sign.string (letters (n + 2))).text ++ [';'])) := by
  simp [lettersText, Term.written, Term.pieces, Piece.text, openTag]

/-- The tokens of the program, for offsets of any size. -/
theorem scanWide_lettersText :
    Token.scanWide (lettersText (n + 2)) =
      .ok ([.wide .singleQuoted 6 (Sign.string (letters (n + 2))).text,
        .wide (.symbol .semicolon) (n + 10) [';']] ++ [⟨.endOfFile, ⟨n + 11, n + 11⟩, ""⟩]) := by
  have hsize : (lettersText (n + 2)).utf8ByteSize = n + 11 := by
    rw [Text.utf8ByteSize_eq, toList_lettersText, Text.byteLength_append, Text.byteLength_cons,
      Text.byteLength_append, byteLength_text_letters]
    change 5 + (1 + (n + 4 + 1)) = n + 11
    omega
  have hstop : (Token.wide .singleQuoted 6 (Sign.string (letters (n + 2))).text).span.stop =
      n + 10 := by
    change 6 + Text.byteLength (Sign.string (letters (n + 2))).text = n + 10
    rw [byteLength_text_letters, Nat.add_comm]
  have hliteral : Token.wideFrom .code 6 ((Sign.string (letters (n + 2))).text ++ [';']) = _ :=
    Token.wideFrom_sign _ (by simp [Sign.needsGap])
  have hsemicolon : Token.wideFrom .code (n + 10) ((Sign.symbol .semicolon rfl).text ++ []) = _ :=
    Token.wideFrom_sign _ (by simp [Sign.needsGap])
  rw [Sign.kind, hstop] at hliteral
  rw [Token.wideFrom_nil] at hsemicolon
  rw [Token.scanWide, toList_lettersText, hsize, Token.wideFrom_openTag,
    Token.wideFrom_blank _ rfl]
  change Token.wideFrom .code 6 _ >>= _ = _
  rw [hliteral, show [';'] = (Sign.symbol .semicolon rfl).text ++ [] from rfl, hsemicolon]
  rfl

/-- The span of the literal covers its quote and one letter. -/
theorem scan_lettersText (hn : n + 2 = Span.limit + 1) :
    Token.scan (lettersText (n + 2)) = .ok [⟨.singleQuoted, ⟨6, 8⟩, "'a"⟩,
      ⟨.symbol .semicolon, ⟨8, 9⟩, "a"⟩, ⟨.endOfFile, ⟨9, 9⟩, ""⟩] := by
  have hround {k : Nat} (hk : k + 8 ≤ Span.limit) : Span.wrap (n + (k + 10)) = k + 8 := by
    rw [show n + (k + 10) = k + 8 + (Span.limit + 1) by omega, Span.wrap_add_round,
      Span.wrap_of_le hk]
  have hliteral : Token.ofChars (lettersText (n + 2)) .singleQuoted 6
      (Sign.string (letters (n + 2))).text = ⟨.singleQuoted, ⟨6, 8⟩, "'a"⟩ := by
    refine Token.ofChars_of_limit_lt (openTag ++ [' ']) ['\'', 'a']
      ('a' :: (List.replicate n 'a' ++ ['\'', ';'])) ?_ rfl ?_ (by decide) ?_
    · simp [toList_lettersText, text_letters]
    · rw [byteLength_text_letters, Nat.add_left_comm]
      exact hround (k := 0) (by decide)
    · rw [byteLength_text_letters]
      omega
  have hsemicolon : Token.ofChars (lettersText (n + 2)) (.symbol .semicolon) (n + 10) [';'] =
      ⟨.symbol .semicolon, ⟨8, 9⟩, "a"⟩ := by
    refine Token.ofChars_of_limit_lt (openTag ++ [' ', '\'', 'a']) ['a']
      (List.replicate n 'a' ++ ['\'', ';']) ?_ (hround (k := 0) (by decide))
      (hround (k := 1) (by decide)) (by decide) (by omega)
    simp [toList_lettersText, text_letters]
  have hend : Token.ofChars (lettersText (n + 2)) .endOfFile (n + 11) [] =
      ⟨.endOfFile, ⟨9, 9⟩, ""⟩ := by
    rw [Token.ofChars_nil, hround (k := 1) (by decide)]
  rw [Token.scan_eq_map_narrow scanWide_lettersText (by simp [Token.wide]), List.map_append,
    List.map_cons, List.map_singleton, List.map_singleton, Token.narrow_wide, Token.narrow_wide,
    hliteral, hsemicolon]
  exact congrArg (fun t => Except.ok [_, _, t]) hend

/-- So the program is read as the string between the quote and the letter, which is empty. -/
theorem source_lettersText (hn : n = Span.limit + 1) :
    source (lettersText n) = .ok [.expression (.string "" ⟨6, 8⟩) ⟨6, 9⟩] := by
  obtain ⟨n, rfl⟩ : ∃ m, n = m + 2 := ⟨Span.limit - 1, hn⟩
  rw [source, start, scan_lettersText hn]
  rfl

end

/-- A string of `Span.limit + 1` letters is not read as what is meant. -/
theorem not_always_written :
    ¬∀ t : Term,
      (t.levels + 2 ≤ maxDepth ∧
        ∃ n span, source ("<?php " ++ t.written ++ ";") = .ok [.expression n span] ∧
          n.bare = t.node) ∨
      (maxDepth < t.levels + 2 ∧
        ∃ span, source ("<?php " ++ t.written ++ ";") = .error (.tooDeep span)) := by
  intro h
  obtain ⟨n, hn⟩ : ∃ n, n = Span.limit + 1 := ⟨_, rfl⟩
  have hread := source_lettersText hn
  rw [lettersText] at hread
  rcases h (.string (letters n)) with ⟨-, e, span, hsource, he⟩ | ⟨-, span, hsource⟩
  · cases hread.symm.trans hsource
    have hlength := congrArg String.length (Node.string.inj he).1
    simp [letters, hn] at hlength
  · cases hread.symm.trans hsource

end PhpScript.Written
