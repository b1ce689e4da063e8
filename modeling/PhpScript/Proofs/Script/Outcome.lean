import PhpScript.Convert

/-!
# What emitting does

Emitting a tree can end in three ways: with a text, at a node that is refused,
or at a node that is too deep. Which of them it is, and with which text, is told
here without the printer:

* `Node.script` is the text of a tree, with no regard to refusals and depth;
* `Node.survey` is how many levels of the tree emitting visits before it stops,
  and whether it stops only at the end. Emitting goes from left to right, so what
  comes after a refused node is not visited.

`Emit.node_describes` says that the printer agrees with them on every tree, and
that it keeps its depth in each case; `Emit.program_describes` says the same of
a program. So a printer can be used for one request after the other, and gives
what a fresh one gives (`Emit.serveAll_fresh`).
-/

namespace PhpScript

/-! ## Surveys -/

/-- What emitting visits of a tree. -/
@[ext]
structure Survey where
  /-- The levels that are visited. -/
  levels : Nat
  /-- Whether no visited node is refused. -/
  complete : Bool
deriving DecidableEq, Repr

namespace Survey

/-- Nothing is left to visit. -/
def done : Survey := ⟨0, true⟩

/-- The node itself is refused. -/
def refused : Survey := ⟨0, false⟩

/-- One tree after the other, unless the first is refused. -/
def andThen (s t : Survey) : Survey :=
  if s.complete then ⟨max s.levels t.levels, t.complete⟩ else s

/-- The trees below a node. -/
def deeper (s : Survey) : Survey := ⟨s.levels + 1, s.complete⟩

@[simp] theorem andThen_done (s : Survey) : s.andThen done = s := by
  obtain ⟨levels, complete⟩ := s
  cases complete <;> simp [done, andThen]

@[simp] theorem levels_deeper (s : Survey) : s.deeper.levels = s.levels + 1 := rfl

@[simp] theorem complete_deeper (s : Survey) : s.deeper.complete = s.complete := rfl

@[simp] theorem complete_andThen (s t : Survey) :
    (s.andThen t).complete = (s.complete && t.complete) := by
  unfold andThen
  cases h : s.complete <;> simp [h]

/-- Nothing is refused, and a number of levels is enough. -/
def Succeeds (s : Survey) (room : Nat) : Prop := s.complete ∧ s.levels ≤ room

theorem not_succeeds_refused {room : Nat} : ¬refused.Succeeds room := fun h => by cases h.1

theorem succeeds_andThen {s t : Survey} {room : Nat} :
    (s.andThen t).Succeeds room ↔ s.Succeeds room ∧ t.Succeeds room := by
  unfold Succeeds andThen
  cases h : s.complete with
  | false => simp [h]
  | true =>
    simp only [if_true, Nat.max_le, true_and]
    constructor
    · rintro ⟨ht, hs, htl⟩
      exact ⟨hs, ht, htl⟩
    · rintro ⟨hs, ht, htl⟩
      exact ⟨ht, hs, htl⟩

theorem succeeds_deeper {s : Survey} {room : Nat} (h : s.deeper.Succeeds room) :
    s.Succeeds room :=
  ⟨h.1, Nat.le_of_succ_le h.2⟩

end Survey

namespace Node

/-- What emitting visits of the name of a member. -/
def surveyMember : Node → Survey
  | identifier .. => .deeper .done
  | _ => .refused

/-- What emitting visits of a name, which needs to have a single part. -/
def surveyName (parts : List String) (fullyQualified : Bool) : Survey :=
  match parts, fullyQualified with
  | [_], false => .done
  | _, _ => .refused

mutual

/-- What emitting visits of a node. -/
def survey : Node → Survey
  | expression expr _ => (survey expr).deeper
  | returns none _ => .deeper .done
  | returns (some value) _ => (survey value).deeper
  | namespaceBlock _ body _ => (surveyList body).deeper
  | classDecl _ (some label) members _ => ((survey label).andThen (surveyList members)).deeper
  | classDecl (some label) none members _ => ((survey label).andThen (surveyList members)).deeper
  | classDecl none none _ _ => .deeper .refused
  | property _ items _ => (surveyList items).deeper
  | propertyItem label none _ => (survey label).deeper
  | propertyItem label (some initial) _ => ((survey label).andThen (survey initial)).deeper
  | method _ label params none _ => ((survey label).andThen (surveyList params)).deeper
  | method _ label params (some body) _ =>
    ((survey label).andThen ((surveyList params).andThen (surveyList body))).deeper
  | methodCall target label args _ =>
    ((survey target).andThen (label.surveyMember.andThen (surveyList args))).deeper
  | functionCall callee args _ => ((survey callee).andThen (surveyList args)).deeper
  | construct cls args _ => ((survey cls).andThen (surveyList args)).deeper
  | index _ none _ => .deeper .refused
  | index base (some key) _ => ((survey base).andThen (survey key)).deeper
  | member base label _ => ((survey base).andThen label.surveyMember).deeper
  | assign target value _ => ((survey target).andThen (survey value)).deeper
  | addAssign target value _ => ((survey target).andThen (survey value)).deeper
  | concat left right _ => ((survey left).andThen (survey right)).deeper
  | arrowFunction params body _ => ((surveyList params).andThen (survey body)).deeper
  | closure params _ body _ => ((surveyList params).andThen (surveyList body)).deeper
  | array slots _ => (surveySlots slots).deeper
  | arrayItem none value _ => (survey value).deeper
  | arrayItem (some key) value _ => ((survey value).andThen (survey key)).deeper
  | argument value _ => (survey value).deeper
  | parameter bound _ => (survey bound).deeper
  | constant label _ => (survey label).deeper
  | var .. | integer .. | float .. | string .. | identifier .. => .deeper .done
  | name parts fullyQualified _ => (surveyName parts fullyQualified).deeper
  | other .. => .deeper .refused

/-- What emitting visits of the nodes of a list. -/
def surveyList : List Node → Survey
  | [] => .done
  | first :: rest => (survey first).andThen (surveyList rest)

/-- What emitting visits of the slots of an array. -/
def surveySlots : List (Option Node) → Survey
  | [] => .done
  | none :: rest => surveySlots rest
  | some item :: rest => (survey item).andThen (surveySlots rest)

end

theorem succeeds_surveyList {nodes : List Node} {room : Nat} :
    (surveyList nodes).Succeeds room ↔ ∀ n ∈ nodes, n.survey.Succeeds room := by
  induction nodes with
  | nil => simp [surveyList, Survey.Succeeds, Survey.done]
  | cons n nodes ih => rw [surveyList, Survey.succeeds_andThen, ih, List.forall_mem_cons]

theorem succeeds_surveySlots {slots : List (Option Node)} {room : Nat} :
    (surveySlots slots).Succeeds room ↔
      ∀ n ∈ slots.filterMap id, n.survey.Succeeds room := by
  induction slots with
  | nil => simp [surveySlots, Survey.Succeeds, Survey.done]
  | cons slot slots ih =>
    cases slot with
    | none => simpa [surveySlots] using ih
    | some n => simp [surveySlots, Survey.succeeds_andThen, ih]

/-! ## Scripts -/

open Emit (join braces parens staticMark)

/-- The text of the name of a member. -/
def scriptMember : Node → String
  | identifier label _ => Script.rename label
  | _ => ""

/-- The text of a name. -/
def scriptName (parts : List String) (fullyQualified : Bool) : String :=
  match parts, fullyQualified with
  | [part], false => part
  | _, _ => ""

mutual

/-- The text of a node; nothing for one that is refused. -/
def script : Node → String
  | expression expr _ => script expr
  | returns none _ => "return"
  | returns (some value) _ => "return " ++ script value
  | namespaceBlock _ body _ => join "\n" (scriptList body)
  | classDecl _ (some label) members _ =>
    "class " ++ script label ++ braces (scriptList members)
  | classDecl (some label) none members _ =>
    "class " ++ script label ++ braces (scriptList members)
  | classDecl none none _ _ => ""
  | property modifiers items _ => join "\n" ((scriptList items).map (staticMark modifiers ++ ·))
  | propertyItem label none _ => script label ++ " = null"
  | propertyItem label (some initial) _ => script label ++ " = " ++ script initial
  | method modifiers label params none _ =>
    staticMark modifiers ++ script label ++ parens (scriptList params) ++ " " ++ braces []
  | method modifiers label params (some body) _ =>
    staticMark modifiers ++ script label ++ parens (scriptList params) ++ " " ++
      braces (scriptList body)
  | methodCall target label args _ =>
    script target ++ "." ++ label.scriptMember ++ parens (scriptList args)
  | functionCall callee args _ => script callee ++ parens (scriptList args)
  | construct cls args _ => "(new " ++ script cls ++ parens (scriptList args) ++ ")"
  | index _ none _ => ""
  | index base (some key) _ => script base ++ "[" ++ script key ++ "]"
  | member base label _ => script base ++ "." ++ label.scriptMember
  | assign target value _ => script target ++ " = " ++ script value
  | addAssign target value _ => script target ++ " += " ++ script value
  | concat left right _ => script left ++ " + " ++ script right
  | arrowFunction params body _ => parens (scriptList params) ++ " => " ++ script body
  | closure params _ body _ =>
    "function" ++ parens (scriptList params) ++ braces (scriptList body)
  | array slots _ => "[" ++ join ", " (scriptSlots slots) ++ "]"
  | arrayItem none value _ => script value
  | arrayItem (some key) value _ => script key ++ ": " ++ script value
  | argument value _ => script value
  | parameter bound _ => script bound
  | var label _ => label
  | constant label _ => script label
  | integer value _ => Script.integer value
  | float value _ => Script.float value
  | string value _ => Script.quote value
  | identifier label _ => Script.rename label
  | name parts fullyQualified _ => scriptName parts fullyQualified
  | other .. => ""

/-- The texts of the nodes of a list. -/
def scriptList : List Node → List String
  | [] => []
  | first :: rest => script first :: scriptList rest

/-- The texts of the slots of an array. -/
def scriptSlots : List (Option Node) → List String
  | [] => []
  | none :: rest => "null" :: scriptSlots rest
  | some item :: rest => script item :: scriptSlots rest

end

end Node

namespace Emit

/-! ## Agreement -/

/-- The levels that a printer has left. -/
def room (p : Printer) : Nat := maxDepth - p.depth

/-- The emitter visits what the survey says, gives the value if it comes to its
    end, and keeps the printer. -/
structure Describes (s : Survey) (a : α) (e : Emitter α) : Prop where
  ok : ∀ {p : Printer}, s.levels ≤ room p → s.complete → e p = .ok a p
  refused : ∀ {p : Printer}, s.levels ≤ room p → s.complete = false →
    ∃ error, e p = .error error p ∧ ∀ span, error ≠ .tooDeep span
  tooDeep : ∀ {p : Printer}, room p < s.levels → ∃ span, e p = .error (.tooDeep span) p

namespace Describes

variable {s t : Survey} {a : α} {b : β} {e : Emitter α} {f : α → Emitter β}

theorem succeeds_of_ok {x : α} {p q : Printer} (he : Describes s a e) (h : e p = .ok x q) :
    s.Succeeds (room p) := by
  by_cases hl : s.levels ≤ room p
  · cases hc : s.complete with
    | false =>
      obtain ⟨error, herror, -⟩ := he.refused hl hc
      rw [herror] at h
      cases h
    | true => exact ⟨hc, hl⟩
  · obtain ⟨span, herror⟩ := he.tooDeep (Nat.lt_of_not_le hl)
    rw [herror] at h
    cases h

/-- A text that is given is the one described. -/
theorem eq_of_ok {x : α} {p q : Printer} (he : Describes s a e) (h : e p = .ok x q) : x = a := by
  obtain ⟨hc, hl⟩ := he.succeeds_of_ok h
  rw [he.ok hl hc] at h
  cases h
  rfl

theorem pure (a : α) : Describes .done a (Pure.pure a) where
  ok _ _ := rfl
  refused _ h := by cases h
  tooDeep h := absurd h (Nat.not_lt_zero _)

theorem throw {error : EmitError} (h : ∀ span, error ≠ .tooDeep span) :
    Describes .refused a (throw error) where
  ok _ h := by cases h
  refused _ _ := ⟨error, rfl, h⟩
  tooDeep h := absurd h (Nat.not_lt_zero _)

theorem bind (he : Describes s a e) (hf : Describes t b (f a)) :
    Describes (s.andThen t) b (e >>= f) where
  ok := by
    intro p hp hs
    rw [Survey.complete_andThen, Bool.and_eq_true] at hs
    simp only [Survey.andThen, hs.1, if_true, Nat.max_le] at hp
    simp only [Bind.bind, EStateM.bind, he.ok hp.1 hs.1]
    exact hf.ok hp.2 hs.2
  refused := by
    intro p hp hs
    cases hc : s.complete with
    | false =>
      simp only [Survey.andThen, hc, Bool.false_eq_true, if_false] at hp
      obtain ⟨error, h, hne⟩ := he.refused hp hc
      exact ⟨error, by simp [Bind.bind, EStateM.bind, h], hne⟩
    | true =>
      simp only [Survey.andThen, hc, if_true, Nat.max_le] at hp hs
      simp only [Bind.bind, EStateM.bind, he.ok hp.1 hc]
      exact hf.refused hp.2 hs
  tooDeep := by
    intro p hp
    by_cases hl : s.levels ≤ room p
    -- The first emitter comes to its end, so the second goes too deep.
    · cases hc : s.complete with
      | false =>
        simp only [Survey.andThen, hc, Bool.false_eq_true, if_false] at hp
        exact absurd hp (Nat.not_lt_of_le hl)
      | true =>
        simp only [Survey.andThen, hc, if_true] at hp
        simp only [Bind.bind, EStateM.bind, he.ok hl hc]
        exact hf.tooDeep (by omega)
    · obtain ⟨span, h⟩ := he.tooDeep (Nat.lt_of_not_le hl)
      exact ⟨span, by simp [Bind.bind, EStateM.bind, h]⟩

/-- What is made of the value afterwards visits nothing. -/
theorem map {g : α → β} (he : Describes s a e) (hg : g a = b := by rfl) :
    Describes s b (e >>= fun x => Pure.pure (g x)) := by
  subst hg
  simpa using he.bind (f := fun x => Pure.pure (g x)) (pure (g a))

theorem within {span : Span} (he : Describes s a e) : Describes s.deeper a (within span e) where
  ok := by
    intro p hp hs
    simp only [Survey.levels_deeper, room] at hp
    have hlt : ¬maxDepth ≤ p.depth := by omega
    have hroom : s.levels ≤ room { depth := p.depth + 1 } := by simp only [room]; omega
    simp [Emit.within, hlt, he.ok hroom hs]
  refused := by
    intro p hp hs
    simp only [Survey.levels_deeper, room] at hp
    have hlt : ¬maxDepth ≤ p.depth := by omega
    have hroom : s.levels ≤ room { depth := p.depth + 1 } := by simp only [room]; omega
    obtain ⟨error, h, hne⟩ := he.refused hroom hs
    exact ⟨error, by simp [Emit.within, hlt, h], hne⟩
  tooDeep := by
    intro p hp
    simp only [Survey.levels_deeper, room] at hp
    by_cases hle : maxDepth ≤ p.depth
    · exact ⟨span, by simp [Emit.within, hle]⟩
    · have hroom : room { depth := p.depth + 1 } < s.levels := by simp only [room]; omega
      obtain ⟨inner, h⟩ := he.tooDeep hroom
      exact ⟨inner, by simp [Emit.within, hle, h]⟩

/-- A printer is the same after emitting as before. -/
theorem keeps (he : Describes s a e) (p : Printer) :
    e p = .ok a p ∨ ∃ error, e p = .error error p := by
  by_cases hl : s.levels ≤ room p
  · cases hc : s.complete with
    | true => exact .inl (he.ok hl hc)
    | false =>
      obtain ⟨error, herror, -⟩ := he.refused hl hc
      exact .inr ⟨error, herror⟩
  · obtain ⟨span, herror⟩ := he.tooDeep (Nat.lt_of_not_le hl)
    exact .inr ⟨_, herror⟩

end Describes

theorem memberName_describes (kind : String) (span : Span) (label : Node) :
    Describes label.surveyMember label.scriptMember (memberName kind span label) := by
  cases label with
  | identifier name s => exact (Describes.pure _).within
  | _ => exact .throw (by simp)

theorem nameText_describes (parts : List String) (fullyQualified : Bool) (span : Span) :
    Describes (Node.surveyName parts fullyQualified) (Node.scriptName parts fullyQualified)
      (nameText parts fullyQualified span) := by
  match parts, fullyQualified with
  | [_], false => exact .pure _
  | [_], true | [], _ | _ :: _ :: _, _ => exact .throw (by simp)

mutual

theorem node_describes : (n : Node) → Describes n.survey n.script (node n)
  | .expression expr _ => (node_describes expr).within
  | .returns none _ => (Describes.pure _).within
  | .returns (some value) _ => (node_describes value).map.within
  | .namespaceBlock _ body _ => (list_describes body).map.within
  | .classDecl _ (some label) members _ =>
    ((node_describes label).bind (list_describes members).map).within
  | .classDecl (some label) none members _ =>
    ((node_describes label).bind (list_describes members).map).within
  | .classDecl none none _ _ => (Describes.throw (by simp)).within
  | .property _ items _ => (list_describes items).map.within
  | .propertyItem label none _ => (node_describes label).map.within
  | .propertyItem label (some initial) _ =>
    ((node_describes label).bind (node_describes initial).map).within
  | .method _ label params none _ =>
    ((node_describes label).bind (list_describes params).map).within
  | .method _ label params (some body) _ =>
    ((node_describes label).bind ((list_describes params).bind (list_describes body).map)).within
  | .methodCall target label args _ =>
    ((node_describes target).bind
      ((memberName_describes _ _ label).bind (list_describes args).map)).within
  | .functionCall callee args _ =>
    ((node_describes callee).bind (list_describes args).map).within
  | .construct cls args _ => ((node_describes cls).bind (list_describes args).map).within
  | .index _ none _ => (Describes.throw (by simp)).within
  | .index base (some key) _ => ((node_describes base).bind (node_describes key).map).within
  | .member base label _ =>
    ((node_describes base).bind (memberName_describes _ _ label).map).within
  | .assign target value _ => ((node_describes target).bind (node_describes value).map).within
  | .addAssign target value _ => ((node_describes target).bind (node_describes value).map).within
  | .concat left right _ => ((node_describes left).bind (node_describes right).map).within
  | .arrowFunction params body _ =>
    ((list_describes params).bind (node_describes body).map).within
  | .closure params _ body _ => ((list_describes params).bind (list_describes body).map).within
  | .array items _ => (slots_describes items).map.within
  | .arrayItem none value _ => (node_describes value).within
  | .arrayItem (some key) value _ => ((node_describes value).bind (node_describes key).map).within
  | .argument value _ => (node_describes value).within
  | .parameter bound _ => (node_describes bound).within
  | .var .. => (Describes.pure _).within
  | .constant label _ => (node_describes label).within
  | .integer .. => (Describes.pure _).within
  | .float .. => (Describes.pure _).within
  | .string .. => (Describes.pure _).within
  | .identifier .. => (Describes.pure _).within
  | .name parts fullyQualified s => (nameText_describes parts fullyQualified s).within
  | .other .. => (Describes.throw (by simp)).within

theorem list_describes : (nodes : List Node) →
    Describes (Node.surveyList nodes) (Node.scriptList nodes) (list nodes)
  | [] => .pure _
  | first :: rest => (node_describes first).bind (list_describes rest).map

theorem slots_describes : (items : List (Option Node)) →
    Describes (Node.surveySlots items) (Node.scriptSlots items) (slots items)
  | [] => .pure _
  | none :: rest => (slots_describes rest).map
  | some item :: rest => (node_describes item).bind (slots_describes rest).map

end

theorem joined_describes (nodes : List Node) (separator : String) :
    Describes (Node.surveyList nodes) (join separator (Node.scriptList nodes))
      (joined nodes separator) :=
  (list_describes nodes).map

theorem program_describes (nodes : List Node) :
    Describes (Node.surveyList nodes) (join "\n\n" (Node.scriptList nodes)) (program nodes) :=
  joined_describes nodes "\n\n"

/-! ## Using a printer again -/

theorem Request.exists_describes (request : Request) :
    ∃ s text, Describes s text request.emitter := by
  cases request with
  | node n => exact ⟨_, _, node_describes n⟩
  | joined nodes separator => exact ⟨_, _, joined_describes nodes separator⟩
  | program nodes => exact ⟨_, _, program_describes nodes⟩

/-- Whatever it is asked for, and whether it fails, a printer is the same after. -/
theorem serve_snd (p : Printer) (request : Request) : (serve p request).2 = p := by
  obtain ⟨s, text, hdescribes⟩ := request.exists_describes
  rcases hdescribes.keeps p with h | ⟨error, h⟩
  · rw [serve, h]
  · rw [serve, h]

/-- The printer after requests one after the other. -/
def printerAfter (p : Printer) : List Request → Printer
  | [] => p
  | request :: rest => printerAfter (serve p request).2 rest

theorem printerAfter_eq (p : Printer) (requests : List Request) : printerAfter p requests = p := by
  induction requests with
  | nil => rfl
  | cons request rest ih => rw [printerAfter, serve_snd, ih]

theorem serveAll_eq_map (p : Printer) (requests : List Request) :
    serveAll p requests = requests.map fun request => (serve p request).1 := by
  induction requests with
  | nil => rfl
  | cons request rest ih =>
    have hstep : serveAll p (request :: rest) =
        (serve p request).1 :: serveAll (serve p request).2 rest := rfl
    rw [hstep, serve_snd, ih, List.map_cons]

/-- One printer gives for each of any number of requests what a fresh one gives,
    whichever of them fail, and between them it is at no depth. -/
theorem serveAll_fresh (requests : List Request) :
    serveAll {} requests = requests.map (fun request => (serve {} request).1) ∧
      ∀ served, (printerAfter {} (requests.take served)).depth = 0 := by
  refine ⟨serveAll_eq_map {} requests, fun served => ?_⟩
  rw [printerAfter_eq]

end Emit

/-! ## Programs -/

namespace Script

variable {nodes : List Node}

theorem ofNodes_eq_ok_iff {text : String} :
    ofNodes nodes = .ok text ↔ (Node.surveyList nodes).Succeeds Emit.maxDepth ∧
      Emit.join "\n\n" (Node.scriptList nodes) = text := by
  have hd := Emit.program_describes nodes
  constructor
  · intro h
    cases hp : Emit.program nodes {} with
    | ok x q =>
      simp only [ofNodes, Emit.serve, Emit.Request.emitter, hp, Except.ok.injEq] at h
      exact ⟨hd.succeeds_of_ok hp, h ▸ (hd.eq_of_ok hp).symm⟩
    | error e q => simp [ofNodes, Emit.serve, Emit.Request.emitter, hp] at h
  · rintro ⟨hs, rfl⟩
    simp [ofNodes, Emit.serve, Emit.Request.emitter, hd.ok (p := {}) hs.2 hs.1]

/-- A program is too deep exactly when the levels that are visited are too many. -/
theorem ofNodes_tooDeep_iff :
    (∃ span, ofNodes nodes = .error (.tooDeep span)) ↔
      Emit.maxDepth < (Node.surveyList nodes).levels := by
  have hd := Emit.program_describes nodes
  constructor
  · rintro ⟨span, h⟩
    refine Nat.lt_of_not_le fun hle => ?_
    have hroom : (Node.surveyList nodes).levels ≤ Emit.room {} := hle
    cases hc : (Node.surveyList nodes).complete with
    | true => simp [ofNodes, Emit.serve, Emit.Request.emitter, hd.ok hroom hc] at h
    | false =>
      obtain ⟨error, herror, hne⟩ := hd.refused hroom hc
      simp only [ofNodes, Emit.serve, Emit.Request.emitter, herror, Except.error.injEq] at h
      exact hne span h
  · intro h
    obtain ⟨span, herror⟩ := hd.tooDeep (p := {}) h
    exact ⟨span, by simp [ofNodes, Emit.serve, Emit.Request.emitter, herror]⟩

end Script

theorem Convert.source_eq_ok_iff {text file script : String} :
    Convert.source text file = .ok script ↔
      ∃ nodes, Parse.source text = .ok nodes ∧ Script.ofNodes nodes = .ok script := by
  cases hp : Parse.source text with
  | error e => simp [Convert.source, Convert.parse, hp, bind, Except.bind]
  | ok nodes =>
    cases hs : Script.ofNodes nodes with
    | error e => simp [Convert.source, Convert.parse, hp, hs, bind, Except.bind, throw, throwThe,
        MonadExceptOf.throw]
    | ok x => simp [Convert.source, Convert.parse, hp, hs, bind, Except.bind, pure, Except.pure]

end PhpScript
