import PhpScript.Proofs.Node.Bare
import PhpScript.Proofs.Parse.Climbing

/-!
# Reading accesses and calls

What one access or call on an expression is read as, given how the expressions
and the arguments in it are read. A member that arguments follow is a method:
the tokens after the label decide between the two.
-/

namespace PhpScript.Parse

variable {expression : Parser Node} {base b key : Node} {args : List Node} {start : Span}
  {label : Sig} {ws : List Sig} {fits : Prop} {opening closing arrow : String}

/-! ## Labels -/

theorem identifier_of_label (hlabel : label.1.isIdentifierLike) :
    Reads identifier [label] Any True fun n => n.bare = .identifier label.2 .unknown := by
  refine .peek_cons label.1 rfl fun t hk htext => ?_
  refine .guard (by simp [hk, hlabel]) (.advance ?_ fun _ _ => .pure (by rw [Node.bare, htext]))
  intro h
  rw [h] at hlabel
  cases hlabel

theorem memberName_of_label (hlabel : label.1.isIdentifierLike) :
    Reads (memberName expression) [label] Any True
      fun n => n.bare = .identifier label.2 .unknown := by
  refine .peek_cons label.1 rfl fun t hk _ => ?_
  rw [← hk] at hlabel
  -- A variable and an expression in braces are no labels.
  split
  · next h => cases h ▸ hlabel
  · next h => cases h ▸ hlabel
  · exact identifier_of_label (hk ▸ hlabel)

/-! ## Links -/

theorem indexLink_of_key (hb : base.bare = b) (hws : ∀ k, firstKind ws k ≠ .symbol .closeBracket)
    (hkey : Reads expression ws (isClosing ·) fits fun n => n.bare = key) :
    Reads (postfixLink expression base start)
      ((.symbol .openBracket, opening) :: (ws ++ [(.symbol .closeBracket, closing)])) Any fits
      fun n => n.bare = .index b (some key) .unknown := by
  refine .peek_cons (.symbol .openBracket) rfl fun t hk _ => ?_
  simp only [hk]
  refine .advance (by simp) fun _ _ => .isAt (b := false) ?_ ?_
  · intro k _
    rw [firstKind_append]
    simpa using hws _
  · have hsome := hkey.map (g := some) (Q := fun n => n.map Node.bare = some key)
      fun n hn => congrArg some hn
    refine hsome.bind_left (fun key? hkey? => ?_) fun _ _ => rfl
    refine .expect rfl (by simp) fun _ _ => .spanFrom fun _ => .pure ?_
    rw [Node.bare, hb, Node.bareOption_eq_map, hkey?]

theorem memberLink_of_label (hb : base.bare = b) (hlabel : label.1.isIdentifierLike) :
    Reads (postfixLink expression base start) [(.symbol .arrow, arrow), label]
      (· ≠ .symbol .openParen) True
      fun n => n.bare = .member b (.identifier label.2 .unknown) .unknown := by
  refine .peek_cons (.symbol .arrow) rfl fun t hk _ => ?_
  simp only [hk]
  refine .advance (by simp) fun _ _ => ?_
  refine ((memberName_of_label hlabel).before fun _ _ => trivial).bind_last fun n hn => ?_
  refine .isAt (b := false) (by simp) (.spanFrom fun _ => .pure ?_)
  rw [Node.bare, hb, hn]

theorem methodLink_of_arguments (hb : base.bare = b) (hlabel : label.1.isIdentifierLike)
    (hws : ∀ k, firstKind ws k = .symbol .openParen)
    (hargs : Reads (arguments expression) ws Any fits fun ns => ns.map Node.bare = args) :
    Reads (postfixLink expression base start) ((.symbol .arrow, arrow) :: label :: ws) Any fits
      fun n => n.bare = .methodCall b (.identifier label.2 .unknown) args .unknown := by
  refine .peek_cons (.symbol .arrow) rfl fun t hk _ => ?_
  simp only [hk]
  refine .advance (by simp) fun _ _ => ?_
  refine (memberName_of_label hlabel).bind_right (fun n hn => ?_) fun _ _ => trivial
  refine .isAt (b := true) (by simp [hws]) (hargs.bind_last fun ns hns => ?_)
  refine .spanFrom fun _ => .pure ?_
  rw [Node.bare, hb, hn, Node.bareList_eq_map, hns]

theorem callLink_of_arguments (hb : base.bare = b) (hws : ∀ k, firstKind ws k = .symbol .openParen)
    (hargs : Reads (arguments expression) ws Any fits fun ns => ns.map Node.bare = args) :
    Reads (postfixLink expression base start) ws Any fits
      fun n => n.bare = .functionCall b args .unknown := by
  refine .peek fun t ⟨k, _, ht⟩ _ => ?_
  rw [hws k] at ht
  simp only [ht]
  refine hargs.bind_last fun ns hns => .spanFrom fun _ => .pure ?_
  rw [Node.bare, hb, Node.bareList_eq_map, hns]

end PhpScript.Parse
