import PhpScript.Proofs.Node.Bare
import PhpScript.Proofs.Script.Outcome

/-!
# Emitting does not look at places

What emitting visits of a tree, and the text it gives for it, stay the same when
the places of its nodes are forgotten. So trees that are equal bare have the same
script, or none of them has one (`Script.ofNodes_eq_ok_iff_of_bare`).
-/

namespace PhpScript

namespace Node

theorem surveyMember_bare (n : Node) : n.bare.surveyMember = n.surveyMember := by
  cases n <;> simp [surveyMember]

theorem scriptMember_bare (n : Node) : n.bare.scriptMember = n.scriptMember := by
  cases n <;> simp [scriptMember]

mutual

/-- Emitting visits the same and gives the same, whatever the places are. -/
theorem emits_bare : (n : Node) → n.bare.survey = n.survey ∧ n.bare.script = n.script
  | returns none _ | classDecl none none _ _ | index _ none _ | var .. | integer .. | float ..
  | string .. | identifier .. | name .. | other .. => ⟨rfl, rfl⟩
  | expression n _ | argument n _ | parameter n _ | constant n _ => by
    simp only [bare, survey, script, emits_bare n, and_self]
  | returns (some n) _ | propertyItem n none _ | arrayItem none n _ => by
    simp only [bare, bareOption, survey, script, emits_bare n, and_self]
  | assign l r _ | addAssign l r _ | concat l r _ => by
    simp only [bare, survey, script, emits_bare l, emits_bare r, and_self]
  | index l (some r) _ | propertyItem l (some r) _ | arrayItem (some l) r _ => by
    simp only [bare, bareOption, survey, script, emits_bare l, emits_bare r, and_self]
  | member base _ _ => by
    simp only [bare, survey, script, emits_bare base, surveyMember_bare, scriptMember_bare,
      and_self]
  | namespaceBlock _ nodes _ | property _ nodes _ => by
    simp only [bare, survey, script, emitsList_bare nodes, and_self]
  | functionCall n nodes _ | construct n nodes _ => by
    simp only [bare, survey, script, emits_bare n, emitsList_bare nodes, and_self]
  | classDecl _ (some label) members _ => by
    simp only [bare, bareOption, survey, script, emits_bare label, emitsList_bare members, and_self]
  | classDecl (some label) none members _ => by
    simp only [bare, bareOption, survey, script, emits_bare label, emitsList_bare members, and_self]
  | method _ label params none _ => by
    simp only [bare, bareBody, survey, script, emits_bare label, emitsList_bare params, and_self]
  | method _ label params (some body) _ => by
    simp only [bare, bareBody, survey, script, emits_bare label, emitsList_bare params,
      emitsList_bare body, and_self]
  | methodCall target _ args _ => by
    simp only [bare, survey, script, emits_bare target, surveyMember_bare, scriptMember_bare,
      emitsList_bare args, and_self]
  | arrowFunction params body _ => by
    simp only [bare, survey, script, emitsList_bare params, emits_bare body, and_self]
  | closure params _ body _ => by
    simp only [bare, survey, script, emitsList_bare params, emitsList_bare body, and_self]
  | array slots _ => by simp only [bare, survey, script, emitsSlots_bare slots, and_self]

theorem emitsList_bare : (nodes : List Node) →
    surveyList (bareList nodes) = surveyList nodes ∧ scriptList (bareList nodes) = scriptList nodes
  | [] => ⟨rfl, rfl⟩
  | n :: rest => by
    simp only [bareList, surveyList, scriptList, emits_bare n, emitsList_bare rest, and_self]

theorem emitsSlots_bare : (slots : List (Option Node)) →
    surveySlots (bareSlots slots) = surveySlots slots ∧
      scriptSlots (bareSlots slots) = scriptSlots slots
  | [] => ⟨rfl, rfl⟩
  | none :: rest => by
    simp only [bareSlots, bareOption, surveySlots, scriptSlots, emitsSlots_bare rest, and_self]
  | some n :: rest => by
    simp only [bareSlots, bareOption, surveySlots, scriptSlots, emits_bare n, emitsSlots_bare rest,
      and_self]

end

theorem survey_bare (n : Node) : n.bare.survey = n.survey := n.emits_bare.1

end Node

/-- Programs that are equal up to places have the same script, if they have one. -/
theorem Script.ofNodes_eq_ok_iff_of_bare {nodes nodes' : List Node} {script : String}
    (h : nodes.map Node.bare = nodes'.map Node.bare) :
    ofNodes nodes = .ok script ↔ ofNodes nodes' = .ok script := by
  have hbare := Node.emitsList_bare nodes
  have hbare' := Node.emitsList_bare nodes'
  rw [Node.bareList_eq_map] at hbare hbare'
  rw [ofNodes_eq_ok_iff, ofNodes_eq_ok_iff, ← hbare.1, ← hbare.2, ← hbare'.1, ← hbare'.2, h]

end PhpScript
