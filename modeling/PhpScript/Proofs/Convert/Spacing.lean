import PhpScript.Proofs.Parse.Placeless
import PhpScript.Proofs.Script.Bare
import PhpScript.Proofs.Token.Spacing

/-!
# White space between tokens

White space in front of a token of code moves what follows it, and nothing
else: the text has the same tokens (`Token.scan_insert`), parsing does not look
at their places (`Parse.source_agrees`), and neither does emitting
(`Script.ofNodes_eq_ok_iff_of_bare`). So the text is converted to the same
script, or is not converted, as before.
-/

namespace PhpScript

namespace Token

/-- Any places belong together. -/
def anywhere : Placing := ⟨fun _ _ => True, fun _ _ => trivial⟩

theorem alike_of_map_sig_eq {tokens tokens' : List Token} (h : tokens.map sig = tokens'.map sig) :
    List.Forall₂ (Alike anywhere) tokens tokens' := by
  rw [← List.forall₂_eq_eq_eq, List.forall₂_map_left_iff, List.forall₂_map_right_iff] at h
  refine h.imp fun t u htu => ?_
  obtain ⟨kind, span, text⟩ := t
  obtain ⟨kind', span', text'⟩ := u
  obtain ⟨rfl, rfl⟩ := Prod.mk.inj htu
  exact .mk trivial

end Token

namespace Convert

/-- Texts with the same kinds and texts of tokens are converted to the same. -/
theorem source_eq_ok_iff_of_sig {text text' file script : String} {tokens tokens' : List Token}
    (h : Token.scan text = .ok tokens) (h' : Token.scan text' = .ok tokens')
    (hsig : tokens.map Token.sig = tokens'.map Token.sig) :
    source text file = .ok script ↔ source text' file = .ok script := by
  rw [source_eq_ok_iff, source_eq_ok_iff]
  obtain ⟨nodes, nodes', hn, hn', hlike⟩ | ⟨e, e', he, he', -⟩ :=
    Parse.source_agrees h h' (Token.alike_of_map_sig_eq hsig)
  · simpa [hn, hn'] using Script.ofNodes_eq_ok_iff_of_bare (Node.Alike.map_bare_eq hlike)
  · simp [he, he']

/-- White space in front of a token of code changes neither the kinds and texts of
    the tokens nor the script. -/
theorem source_insert {text blanks : String} {tokens : List Token} {t : Token}
    (h : Token.scan text = .ok tokens) (ht : t ∈ tokens)
    (hkind : t.kind ≠ .inlineHtml ∧ t.kind ≠ .endOfFile) (hne : blanks ≠ "")
    (hblanks : blanks.toList.all isCodeBlank)
    (hsize : text.utf8ByteSize + blanks.utf8ByteSize < Span.limit) :
    ∃ left right, text = left ++ right ∧ left.utf8ByteSize = t.span.start ∧
      (∃ tokens', Token.scan (left ++ blanks ++ right) = .ok tokens' ∧
        tokens'.map Token.sig = tokens.map Token.sig) ∧
      ∀ file script, source (left ++ blanks ++ right) file = .ok script ↔
        source text file = .ok script := by
  obtain ⟨left, right, htext, hstart, tokens', hscan, hsig⟩ :=
    Token.scan_insert h ht hkind hne hblanks (Nat.le_of_lt hsize)
  exact ⟨left, right, htext, hstart, ⟨tokens', hscan, hsig⟩,
    fun file script => source_eq_ok_iff_of_sig hscan h hsig⟩

/-- A line end in front of the point between two operands. -/
theorem source_insert_beforePoint :
    "<?php $a.$b;".utf8ByteSize + "\r\n".utf8ByteSize < Span.limit ∧
    ∃ left right, "<?php $a.$b;" = left ++ right ∧ left.utf8ByteSize = 8 ∧
      (∃ tokens, Token.scan (left ++ "\r\n" ++ right) = .ok tokens ∧
        tokens.map Token.sig = [(.varName, "$a"), (.symbol .dot, "."), (.varName, "$b"),
          (.symbol .semicolon, ";"), (.endOfFile, "")]) ∧
      ∀ file script, source (left ++ "\r\n" ++ right) file = .ok script ↔
        source "<?php $a.$b;" file = .ok script := by
  have hscan : Token.scan "<?php $a.$b;" = .ok
      [⟨.varName, ⟨6, 8⟩, "$a"⟩, ⟨.symbol .dot, ⟨8, 9⟩, "."⟩, ⟨.varName, ⟨9, 11⟩, "$b"⟩,
       ⟨.symbol .semicolon, ⟨11, 12⟩, ";"⟩, ⟨.endOfFile, ⟨12, 12⟩, ""⟩] := by decide +kernel
  have hsize : "<?php $a.$b;".utf8ByteSize + "\r\n".utf8ByteSize < Span.limit := by decide +kernel
  exact ⟨hsize, source_insert (t := ⟨.symbol .dot, ⟨8, 9⟩, "."⟩) hscan (by simp) (by simp)
    (by decide) (by decide) hsize⟩

end Convert

end PhpScript
