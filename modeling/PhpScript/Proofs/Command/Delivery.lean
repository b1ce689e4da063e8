import Mathlib.Data.List.Basic
import PhpScript.Command

/-!
# Delivery

A run goes over the same inputs several times: it settles their outputs, converts
them, writes or prints what came of them, and reports what failed. That these
belong together is proved for any access to files (`FileAccess (StateM σ)`), from
what the operations gave one after the other (`Runs`).

* `outputs_cases`: the outputs of the inputs are settled if they are apart from
  each other, and otherwise two of the inputs are named that clash.
* `writeTo_eq`: what is written is the outputs of the conversions that went well,
  each to the place of its own input.
* `run_delivers`: a whole run, with what it prints, writes and reports.
* `Conversion.input_infix_report`: each of the reports names its input.
-/

namespace PhpScript

/-- The input that an error tells of. -/
def ConvertError.input : ConvertError → String
  | read path _ => path
  | parse file .. | emit file .. | dump file .. => file

/-- The place of an error begins with its input, unless that could not be read. -/
theorem ConvertError.origin?_cases (e : ConvertError) :
    (∃ place, e.origin? = some (e.input ++ place)) ∨ ∃ path fault, e = .read path fault := by
  have hfile {file : String} (hfile : e.file? = some file) :
      ∃ place, e.origin? = some (file ++ place) := by
    rw [origin?, hfile, Option.map_some]
    split
    · next location _ => exact ⟨":" ++ location.describe, by rw [String.append_assoc]⟩
    · exact ⟨"", by rw [String.append_empty]⟩
  cases e with
  | read path fault => exact .inr ⟨path, fault, rfl⟩
  | parse file error place => exact .inl (hfile rfl)
  | emit file error place => exact .inl (hfile rfl)
  | dump file error => exact .inl (hfile rfl)

/-! ## Reports -/

namespace Report

theorem restyle_append {style cs : List Char} (hcs : '\x1b' ∉ cs) (rest : List Char) :
    restyle style (cs ++ rest) = cs ++ restyle style rest := by
  induction cs with
  | nil => rfl
  | cons c cs ih =>
    rw [List.mem_cons, not_or] at hcs
    rw [List.cons_append, List.cons_append, restyle, ih hcs.2]
    exact fun _ hc _ => hcs.1 hc.symm

/-- A styled text is shown with the text it begins with, if no style is switched off there. -/
theorem infix_styled {color : Bool} {shown : String} (h : color → '\x1b' ∉ shown.toList)
    (code rest : String) : shown.toList <:+: (styled color code (shown ++ rest)).toList := by
  cases color with
  | false => exact ⟨[], rest.toList, by simp [styled]⟩
  | true =>
    let style := ['\x1b', '['] ++ code.toList ++ ['m']
    exact ⟨style, restyle style rest.toList ++ reset,
      by simp [style, styled, restyle_append (h rfl)]⟩

/-- A report names the input, unless that itself switches off the styles it is shown in. -/
theorem input_infix_format {color : Bool} {e : ConvertError}
    (h : color → '\x1b' ∉ e.input.toList) : e.input.toList <:+: (format color e).toList := by
  rcases e.origin?_cases with ⟨place, horigin⟩ | ⟨path, fault, rfl⟩
  · simp only [format, horigin, String.toList_append, List.append_assoc]
    exact (infix_styled h placeStyle place).trans (List.prefix_append _ _).isInfix
  · have hsummary : (ConvertError.read path fault).summary =
        "failed to read " ++ path ++ ": " ++ fault.message := rfl
    have hinput : path.toList <:+: (ConvertError.read path fault).summary.toList := by
      rw [hsummary, String.toList_append, String.toList_append, String.toList_append,
        List.append_assoc]
      exact List.infix_append _ _ _
    simp only [format, String.toList_append]
    exact hinput.trans (List.infix_append _ _ _)

end Report

theorem Path.same_comm (p q : String) : Path.same p q = Path.same q p := BEq.comm

namespace Command

/-! ## One operation after the other -/

section

variable {α β σ : Type}

/-- An operation went over arguments one after the other, and gave for each what
    stands by it. -/
inductive Runs (op : α → StateM σ β) : List (α × β) → σ → σ → Prop
  | nil {s : σ} : Runs op [] s s
  | cons {a : α} {b : β} {rest : List (α × β)} {s s' s'' : σ} :
    op a s = (b, s') → Runs op rest s' s'' → Runs op ((a, b) :: rest) s s''

variable {op : α → StateM σ β} {pairs : List (α × β)} {s s' : σ}

theorem exists_runs (op : α → StateM σ β) (args : List α) (s : σ) :
    ∃ pairs s', pairs.map Prod.fst = args ∧ Runs op pairs s s' := by
  induction args generalizing s with
  | nil => exact ⟨[], s, rfl, .nil⟩
  | cons a args ih =>
    obtain ⟨pairs, s', rfl, hruns⟩ := ih (op a s).2
    exact ⟨(a, (op a s).1) :: pairs, s', rfl, .cons rfl hruns⟩

theorem Runs.mapM_eq (h : Runs op pairs s s') :
    (pairs.map Prod.fst).mapM op s = (pairs.map Prod.snd, s') := by
  induction h with
  | nil => rfl
  | cons hstep _ ih =>
    simp only [List.map_cons, List.mapM_cons, Bind.bind, StateT.bind, hstep, ih]
    rfl

theorem Runs.forall_mem {P : α × β → Prop} (h : Runs op pairs s s')
    (hop : ∀ a s, P (a, (op a s).1)) : ∀ p ∈ pairs, P p := by
  induction h with
  | nil => exact fun _ hp => absurd hp List.not_mem_nil
  | @cons a b rest s s' s'' hstep _ ih =>
    refine List.forall_mem_cons.2 ⟨?_, ih⟩
    have hb := hop a s
    rwa [hstep] at hb

theorem Runs.eq_of_keeps (h : Runs op pairs s s') (hop : ∀ a s, (op a s).2 = s) : s' = s := by
  induction h with
  | nil => rfl
  | @cons a b rest s s' s'' hstep _ ih =>
    have hkept := hop a s
    rw [hstep] at hkept
    exact ih.trans hkept

end

/-! ## Conversions -/

/-- An input with what its conversion gave. -/
abbrev Conversion := String × Except ConvertError String

section

variable {text file : String} {e : ConvertError}

/-- An error after parsing tells of the input if those of what is done with the tree
    do. -/
theorem parse_bind_input {f : List Node → Except ConvertError String}
    (h : (Convert.parse text file >>= f) = .error e)
    (hf : ∀ nodes, f nodes = .error e → e.input = file) : e.input = file := by
  unfold Convert.parse at h
  split at h
  · exact hf _ h
  · cases h
    rfl

theorem treeText_input (h : treeText text file = .error e) : e.input = file :=
  parse_bind_input h fun _ hnodes => by cases hnodes

theorem source_input (h : Convert.source text file = .error e) : e.input = file := by
  refine parse_bind_input h fun nodes hnodes => ?_
  split at hnodes
  · cases hnodes
  · cases hnodes
    rfl

theorem dump_input (h : Convert.dump text file = .error e) : e.input = file := by
  unfold Convert.dump at h
  split at h
  · split at h
    · cases h
    · cases h
      rfl
  · cases h
    rfl

theorem convertText_input {args : Arguments} (h : convertText args text file = .error e) :
    e.input = file := by
  unfold convertText at h
  split at h
  · exact treeText_input h
  · split at h
    · exact dump_input h
    · exact source_input h

/-- An error tells of the input that was converted. -/
theorem convertFile_input {σ : Type} (access : FileAccess (StateM σ)) (args : Arguments)
    (path : String) (s : σ) (h : (convertFile access args path s).1 = .error e) :
    e.input = path := by
  simp only [convertFile, Bind.bind, StateT.bind] at h
  cases hread : access.readText path s with
  | mk result s' =>
    rw [hread] at h
    cases result with
    | ok text => exact convertText_input h
    | error fault =>
      cases h
      rfl

end

/-! ## Outputs -/

section

variable (outDir extension : String)

/-- The outputs of two inputs are at different places. -/
def Apart (f g : String) : Prop :=
  ¬Path.same (Path.output outDir f extension) (Path.output outDir g extension)

instance (f g : String) : Decidable (Apart outDir extension f g) := inferInstanceAs (Decidable (¬_))

/-- Inputs, each with its output. -/
def claims (files : List String) : List (String × String) :=
  files.map fun f => (f, Path.output outDir f extension)

variable {outDir extension}

/-- An output belongs to the first input before whose output is at the same place. -/
theorem claimant?_eq (output : String) (claimed : List (String × String)) :
    Inputs.claimant? output claimed =
      (claimed.find? fun claim => Path.same output claim.2).map (·.1) := rfl

/-- An output belongs to an input before, or it is apart from all of them. -/
theorem claimant?_cases (input : String) (settled : List String) :
    (∃ first ∈ settled, ¬Apart outDir extension first input ∧
      Inputs.claimant? (Path.output outDir input extension) (claims outDir extension settled) =
        some first) ∨
    ((∀ f ∈ settled, Apart outDir extension f input) ∧
      Inputs.claimant? (Path.output outDir input extension) (claims outDir extension settled) =
        none) := by
  rw [claimant?_eq]
  cases hfind : (claims outDir extension settled).find? fun claim =>
      Path.same (Path.output outDir input extension) claim.2 with
  | some claim =>
    obtain ⟨first, hfirst, rfl⟩ := List.mem_map.1 (List.mem_of_find?_eq_some hfind)
    have hsame : Path.same (Path.output outDir input extension)
        (Path.output outDir first extension) :=
      List.find?_eq_some_iff_append.1 hfind |>.1
    refine .inl ⟨first, hfirst, fun h => h ?_, rfl⟩
    rw [Path.same_comm, hsame]
  | none =>
    refine .inr ⟨fun f hf hsame => ?_, rfl⟩
    rw [Path.same_comm] at hsame
    exact List.find?_eq_none.1 hfind _ (List.mem_map_of_mem hf) hsame

/-- The outputs of inputs are settled one by one, with all before them apart, up to
    the first that clashes with one before it. -/
theorem outputsFrom_cases {settled : List String} (rest : List String)
    (h : settled.Pairwise fun f g => Apart outDir extension g f) :
    (∃ first second, [first, second].Sublist (settled.reverse ++ rest) ∧
      ¬Apart outDir extension first second ∧
      Inputs.outputsFrom outDir extension (claims outDir extension settled) rest =
        .error (.outputClash first second (Path.output outDir second extension))) ∨
    ((settled.reverse ++ rest).Pairwise (Apart outDir extension) ∧
      Inputs.outputsFrom outDir extension (claims outDir extension settled) rest =
        .ok (rest.map (Path.output outDir · extension))) := by
  -- The inputs before are kept with the last of them first.
  induction rest generalizing settled with
  | nil =>
    refine .inr ⟨?_, rfl⟩
    rwa [List.append_nil, List.pairwise_reverse]
  | cons input rest ih =>
    rcases claimant?_cases input settled with ⟨first, hfirst, hclash, hclaim⟩ | ⟨hapart, hclaim⟩
    · refine .inl ⟨first, input, ?_, hclash, ?_⟩
      · exact (List.singleton_sublist.2 (List.mem_reverse.2 hfirst)).append
          (List.singleton_sublist.2 List.mem_cons_self)
      · simp only [Inputs.outputsFrom, hclaim]
    · have hnext := ih (List.pairwise_cons.2 ⟨hapart, h⟩)
      rw [List.reverse_cons, List.append_assoc, List.singleton_append, claims,
        List.map_cons] at hnext
      simp only [Inputs.outputsFrom, hclaim]
      rcases hnext with ⟨first, second, hlist, hclash, herror⟩ | ⟨hpair, hok⟩
      · refine .inl ⟨first, second, hlist, hclash, ?_⟩
        rw [claims, herror]
        rfl
      · refine .inr ⟨hpair, ?_⟩
        rw [claims, hok]
        rfl

/-- The outputs of inputs that are apart, or a clash of two of them. -/
theorem outputs_cases (files : List String) :
    (∃ first second, [first, second].Sublist files ∧ ¬Apart outDir extension first second ∧
      Inputs.outputs outDir extension files =
        .error (.outputClash first second (Path.output outDir second extension))) ∨
    (files.Pairwise (Apart outDir extension) ∧
      Inputs.outputs outDir extension files =
        .ok (files.map (Path.output outDir · extension))) :=
  outputsFrom_cases files .nil

end

/-! ## Printing and reporting -/

theorem intercalate_eq_join (sep : String) (texts : List String) :
    String.intercalate sep texts = String.join (texts.intersperse sep) := by
  induction texts with
  | nil => rfl
  | cons text texts ih =>
    cases texts with
    | nil => simp
    | cons next texts =>
      rw [String.intercalate_cons_cons, ih, List.intersperse_cons_cons, String.join_cons,
        String.join_cons, String.append_assoc]

theorem intercalate_append {sep : String} {texts : List String} (h : texts ≠ []) :
    String.intercalate sep texts ++ sep = String.join (texts.map (· ++ sep)) := by
  induction texts with
  | nil => exact absurd rfl h
  | cons text texts ih =>
    cases texts with
    | nil => simp
    | cons next texts =>
      rw [String.intercalate_cons_cons, List.map_cons, String.join_cons,
        ← ih (List.cons_ne_nil _ _)]
      simp only [String.append_assoc]

namespace Conversion

/-- The output of a conversion that went well. -/
def text? (c : Conversion) : Option String := c.2.toOption

/-- The report on a conversion that failed. -/
def report? (color : Bool) : Conversion → Option String
  | (_, .ok _) => none
  | (_, .error e) => some (Report.format color e)

/-- The report on an input names it. -/
theorem input_infix_report {color : Bool} {c : Conversion} {report : String}
    (hinput : ∀ e, c.2 = .error e → e.input = c.1) (hplain : color → '\x1b' ∉ c.1.toList)
    (h : c.report? color = some report) : c.1.toList <:+: report.toList := by
  rcases c with ⟨f, e | text⟩
  · cases h
    obtain rfl : e.input = f := hinput e rfl
    exact Report.input_infix_format hplain
  · cases h

end Conversion

theorem successes_eq (conversions : List Conversion) :
    successes (conversions.map Prod.snd) = conversions.filterMap Conversion.text? := by
  rw [successes, List.filterMap_map]
  congr 1
  funext c
  rcases c with ⟨f, _ | _⟩ <;> rfl

theorem map_format_failures (color : Bool) (conversions : List Conversion) :
    (failures (conversions.map Prod.snd)).map (Report.format color) =
      conversions.filterMap (Conversion.report? color) := by
  rw [failures, List.filterMap_map, List.map_filterMap]
  congr 1
  funext c
  rcases c with ⟨f, _ | _⟩ <;> rfl

theorem failures_eq_nil_iff (conversions : List Conversion) :
    failures (conversions.map Prod.snd) = [] ↔ ∀ c ∈ conversions, c.2.isOk := by
  rw [failures, List.filterMap_map, List.filterMap_eq_nil_iff]
  refine forall₂_congr fun c _ => ?_
  rcases c with ⟨f, _ | _⟩ <;> simp [Except.isOk, Except.toBool]

/-- Reports, each on lines of its own, and their number; nothing if there are none. -/
def summary (reports : List String) : String :=
  if reports = [] then ""
  else
    String.join (reports.map (· ++ "\n")) ++ "\nFound " ++ toString reports.length ++ " error" ++
      (if reports.length = 1 then "" else "s") ++ ".\n"

theorem errorReport_eq {color : Bool} {errors : List ConvertError} (h : errors ≠ []) :
    errorReport color errors = summary (errors.map (Report.format color)) := by
  have hreports : errors.map (Report.format color) ≠ [] :=
    fun hnil => h (List.map_eq_nil_iff.1 hnil)
  rw [summary, if_neg hreports, ← intercalate_append hreports, List.length_map]
  simp only [errorReport, Report.render, String.append_assoc]
  rfl

/-- What an outcome says of the conversions, wherever their outputs went. -/
structure Summarizes (color : Bool) (conversions : List Conversion) (outcome : Outcome) : Prop where
  code : outcome.code = 0 ↔ ∀ c ∈ conversions, c.2.isOk
  stderr : outcome.stderr = summary (conversions.filterMap (Conversion.report? color))

theorem finish_summarizes (color : Bool) (stdout : String) (conversions : List Conversion) :
    Summarizes color conversions (finish color stdout (conversions.map Prod.snd)) := by
  unfold finish
  split
  · next hnone =>
    refine ⟨iff_of_true rfl ((failures_eq_nil_iff _).1 hnone), ?_⟩
    rw [← map_format_failures, hnone]
    rfl
  · next hsome =>
    refine ⟨iff_of_false Nat.one_ne_zero fun hall => ?_, ?_⟩
    · exact hsome ((failures_eq_nil_iff _).2 hall)
    · rw [← map_format_failures]
      exact errorReport_eq hsome

theorem finish_stdout (color : Bool) (stdout : String)
    (results : List (Except ConvertError String)) :
    (finish color stdout results).stdout = stdout := by
  unfold finish
  split <;> rfl

/-! ## Writing -/

section

variable {σ : Type} {access : FileAccess (StateM σ)} {outDir extension : String}

/-- What is written for a conversion that went well, with its place. -/
def Conversion.delivery? (outDir extension : String) (c : Conversion) : Option (String × String) :=
  c.text?.map fun text => (Path.output outDir c.1 extension, text ++ "\n")

/-- What is written for conversions. -/
def deliveries (outDir extension : String) (conversions : List Conversion) :
    List (String × String) :=
  conversions.filterMap (Conversion.delivery? outDir extension)

theorem pairwise_deliveries {conversions : List Conversion}
    (h : (conversions.map Prod.fst).Pairwise (Apart outDir extension)) :
    (deliveries outDir extension conversions).Pairwise fun d e => ¬Path.same d.1 e.1 := by
  refine List.Pairwise.filterMap _ (fun c c' hapart d hd d' hd' => ?_) (List.pairwise_map.1 h)
  obtain ⟨text, -, rfl⟩ := Option.map_eq_some_iff.1 hd
  obtain ⟨text', -, rfl⟩ := Option.map_eq_some_iff.1 hd'
  exact hapart

/-- Texts are written to their places one after the other, and no write fails. -/
def Writes (access : FileAccess (StateM σ)) (texts : List (String × String)) : σ → σ → Prop :=
  Runs (fun d => access.writeText d.1 d.2) (texts.map (·, .ok ()))

theorem writeAll_eq {conversions : List Conversion} {s s' : σ}
    (h : Writes access (deliveries outDir extension conversions) s s') :
    writeAll access (conversions.map fun c => (Path.output outDir c.1 extension, c.2)) s =
      (.ok (), s') := by
  induction conversions generalizing s with
  | nil =>
    cases h
    rfl
  | cons c conversions ih =>
    rcases c with ⟨f, e | text⟩
    · -- There is nothing to write for a failed input, and its place is passed over.
      exact ih h
    · cases h with
      | cons hwrite hrest =>
        have hnext := ih hrest
        simp only [List.map_cons, writeAll, Bind.bind, StateT.bind, hwrite, hnext]

theorem writeTo_eq {color : Bool} {conversions : List Conversion} {s₁ s₂ s₃ : σ}
    (hdir : access.makeDirectories outDir s₁ = (.ok (), s₂))
    (hwrites : Writes access (deliveries outDir extension conversions) s₂ s₃) :
    writeTo access color outDir
        ((conversions.map Prod.fst).map (Path.output outDir · extension))
        (conversions.map Prod.snd) s₁ =
      (finish color "" (conversions.map Prod.snd), s₃) := by
  have hzip : ((conversions.map Prod.fst).map (Path.output outDir · extension)).zip
      (conversions.map Prod.snd) =
      conversions.map fun c => (Path.output outDir c.1 extension, c.2) := by
    rw [List.map_map, List.zip_map']
    rfl
  simp only [writeTo, Bind.bind, StateT.bind, hdir, hzip, writeAll_eq hwrites]
  rfl

/-! ## Whole runs -/

variable {screen : Screen} {args : Arguments} {conversions : List Conversion} {s₀ s s₁ s₂ s₃ : σ}

theorem runWith_printing
    (hfiles : Inputs.collect access args.inputExtension args.inputs s₀ =
      (.ok (conversions.map Prod.fst), s))
    (hruns : Runs (convertFile access args) conversions s s₁)
    (hprint : args.outDir = none) :
    runWith access screen args s₀ =
      (finish (screen.color args) (printed (conversions.filterMap Conversion.text?))
        (conversions.map Prod.snd), s₁) := by
  simp only [runWith, Bind.bind, StateT.bind, hfiles, hprint, hruns.mapM_eq, successes_eq]
  rfl

theorem runWith_clash {files : List String} {error : RunError}
    (hfiles : Inputs.collect access args.inputExtension args.inputs s₀ = (.ok files, s))
    (hdir : args.outDir = some outDir)
    (hclash : Inputs.outputs outDir args.outputExtension files = .error error) :
    runWith access screen args s₀ = (abort error, s) := by
  simp only [runWith, Bind.bind, StateT.bind, hfiles, hdir, hclash]
  rfl

theorem runWith_writing
    (hfiles : Inputs.collect access args.inputExtension args.inputs s₀ =
      (.ok (conversions.map Prod.fst), s))
    (hruns : Runs (convertFile access args) conversions s s₁)
    (hdir : args.outDir = some outDir)
    (houtputs : Inputs.outputs outDir args.outputExtension (conversions.map Prod.fst) =
      .ok ((conversions.map Prod.fst).map (Path.output outDir · args.outputExtension)))
    (hmake : access.makeDirectories outDir s₁ = (.ok (), s₂))
    (hwrites : Writes access (deliveries outDir args.outputExtension conversions) s₂ s₃) :
    runWith access screen args s₀ =
      (finish (screen.color args) "" (conversions.map Prod.snd), s₃) := by
  simp only [runWith, Bind.bind, StateT.bind, hfiles, hdir, houtputs, hruns.mapM_eq,
    writeTo_eq hmake hwrites]

end

/-- A run over the files that were collected, each with what its conversion gave.

    Without an output directory the outputs are printed, in the order of the inputs.
    With one, nothing is converted or written if two inputs have the same output;
    otherwise what is written is the output of each input that was converted, to
    its place, if the directory can be made and each of them written. Either way the
    inputs that failed are reported in their order, and the exit code tells whether
    there are any. -/
theorem run_delivers {σ : Type} (access : FileAccess (StateM σ)) (screen : Screen)
    {arguments files : List String} {args : Arguments} {s₀ s : σ}
    (hargs : Arguments.read arguments = .ok args)
    (hfiles : Inputs.collect access args.inputExtension args.inputs s₀ = (.ok files, s)) :
    ∃ (conversions : List Conversion) (s₁ : σ),
      conversions.map Prod.fst = files ∧ Runs (convertFile access args) conversions s s₁ ∧
      (∀ f e, (f, .error e) ∈ conversions → e.input = f) ∧
      (args.outDir = none →
        ∃ outcome, run access screen arguments s₀ = (.ok outcome, s₁) ∧
          Summarizes (screen.color args) conversions outcome ∧
          outcome.stdout = String.join
            (((conversions.filterMap Conversion.text?).map (· ++ "\n")).intersperse "\n")) ∧
      ∀ outDir, args.outDir = some outDir →
        (¬files.Pairwise (Apart outDir args.outputExtension) →
          ∃ first second, [first, second].Sublist files ∧
            ¬Apart outDir args.outputExtension first second ∧
            run access screen arguments s₀ = (.ok (abort (.outputClash first second
              (Path.output outDir second args.outputExtension))), s)) ∧
        (files.Pairwise (Apart outDir args.outputExtension) →
          (deliveries outDir args.outputExtension conversions).Pairwise
            (fun d e => ¬Path.same d.1 e.1) ∧
          ∀ s₂ s₃, access.makeDirectories outDir s₁ = (.ok (), s₂) →
            Writes access (deliveries outDir args.outputExtension conversions) s₂ s₃ →
            ∃ outcome, run access screen arguments s₀ = (.ok outcome, s₃) ∧
              Summarizes (screen.color args) conversions outcome ∧ outcome.stdout = "") := by
  obtain ⟨conversions, s₁, rfl, hruns⟩ := exists_runs (convertFile access args) files s
  have hrun {outcome : Outcome} {s' : σ} (h : runWith access screen args s₀ = (outcome, s')) :
      run access screen arguments s₀ = (.ok outcome, s') := by
    simp only [run, hargs, Bind.bind, StateT.bind, h]
    rfl
  refine ⟨conversions, s₁, rfl, hruns, ?_, fun hprint => ?_, fun outDir hdir => ?_⟩
  · have hinput := hruns.forall_mem (P := fun c => ∀ e, c.2 = .error e → e.input = c.1)
      fun path s e he => convertFile_input access args path s he
    exact fun f e hfe => hinput _ hfe e rfl
  · refine ⟨_, hrun (runWith_printing hfiles hruns hprint), finish_summarizes _ _ _, ?_⟩
    rw [finish_stdout, printed, intercalate_eq_join]
  · rcases outputs_cases (conversions.map Prod.fst) with
      ⟨first, second, hlist, hclash, herror⟩ | ⟨hapart, houtputs⟩
    · have hnot : ¬(conversions.map Prod.fst).Pairwise (Apart outDir args.outputExtension) :=
        fun hapart => hclash (List.pairwise_iff_forall_sublist.1 hapart hlist)
      exact ⟨fun _ => ⟨first, second, hlist, hclash, hrun (runWith_clash hfiles hdir herror)⟩,
        fun hapart => absurd hapart hnot⟩
    · refine ⟨fun hnot => absurd hapart hnot, fun _ => ⟨pairwise_deliveries hapart, ?_⟩⟩
      intro s₂ s₃ hmake hwrites
      exact ⟨_, hrun (runWith_writing hfiles hruns hdir houtputs hmake hwrites),
        finish_summarizes _ _ _, finish_stdout _ _ _⟩

/-! On a disk in memory, the inputs are looked for and read without a change to it. -/

theorem expand_inMemory (extension input : String) (disk : Disk) :
    (Inputs.expand .inMemory extension input disk).2 = disk := by
  have hfolder : FileAccess.inMemory.isDirectory input disk = (disk.isFolderAt input, disk) := rfl
  have hexists : FileAccess.inMemory.exists? input disk = (disk.existsAt input, disk) := rfl
  simp only [Inputs.expand, Bind.bind, StateT.bind, hfolder]
  split
  · rfl
  · simp only [StateT.bind, hexists, Bind.bind]
    split <;> rfl

theorem collect_inMemory (extension : String) (inputs : List String) (disk : Disk) :
    (Inputs.collect .inMemory extension inputs disk).2 = disk := by
  unfold Inputs.collect
  generalize ([] : List String) = files
  induction inputs generalizing files with
  | nil => rfl
  | cons input inputs ih =>
    have hexpand := expand_inMemory extension input disk
    simp only [Inputs.collectFrom, Bind.bind, StateT.bind]
    cases hresult : Inputs.expand .inMemory extension input disk with
    | mk result disk' =>
      obtain rfl : disk' = disk := by rwa [hresult] at hexpand
      cases result with
      | ok more => exact ih _
      | error error => rfl

theorem convertFile_inMemory (args : Arguments) (path : String) (disk : Disk) :
    (convertFile .inMemory args path disk).2 = disk := by
  have hread : FileAccess.inMemory.readText path disk = (disk.readText path, disk) := rfl
  simp only [convertFile, Bind.bind, StateT.bind, hread]
  cases disk.readText path <;> rfl

/-- Two pages, of which the second takes an element without an index. -/
def twoPages : Disk where
  root := .folder [("a.php", .file (Utf8.encode "<?php $x;".toList)),
    ("b.php", .file (Utf8.encode "<?php $y[];".toList))]

theorem twoPages_delivers :
    ∃ outcome disk, run .inMemory {} ["-o", "out", "a.php", "b.php"] twoPages =
        (.ok outcome, disk) ∧ outcome.code ≠ 0 ∧ outcome.stdout = "" ∧
      disk.readText "out/a.js" = .ok "x\n" := by
  have hargs : Arguments.read ["-o", "out", "a.php", "b.php"] =
      .ok { outDir := some "out", inputs := ["a.php", "b.php"] } := by decide +kernel
  have hfiles : Inputs.collect .inMemory "php" ["a.php", "b.php"] twoPages =
      (.ok ["a.php", "b.php"], twoPages) :=
    Prod.ext (by decide +kernel) (collect_inMemory _ _ _)
  obtain ⟨conversions, s₁, hfst, hruns, -, -, hwrite⟩ := run_delivers .inMemory {} hargs hfiles
  obtain rfl : s₁ = twoPages := hruns.eq_of_keeps (convertFile_inMemory _)
  obtain ⟨-, houtcome⟩ := (hwrite "out" rfl).2 (by decide +kernel)
  -- What came of the pages, the directory and the one file, worked out on the disk.
  have hsnd := congrArg Prod.fst hruns.mapM_eq
  rw [hfst] at hsnd
  have hconversions := List.zip_of_prod hfst hsnd.symm
  have hdeliveries : deliveries "out" "js" conversions = [("out/a.js", "x\n")] := by
    rw [hconversions]
    decide +kernel
  let made := FileAccess.inMemory.makeDirectories "out" twoPages
  let wrote := FileAccess.inMemory.writeText "out/a.js" "x\n" made.2
  have hmake : FileAccess.inMemory.makeDirectories "out" twoPages = (.ok (), made.2) :=
    Prod.ext (by decide +kernel) rfl
  have hwrote : FileAccess.inMemory.writeText "out/a.js" "x\n" made.2 = (.ok (), wrote.2) :=
    Prod.ext (by decide +kernel) rfl
  have hwrites : Writes .inMemory (deliveries "out" "js" conversions) made.2 wrote.2 := by
    rw [hdeliveries]
    exact .cons hwrote .nil
  obtain ⟨outcome, hrun, hsummary, hstdout⟩ := houtcome made.2 wrote.2 hmake hwrites
  refine ⟨outcome, wrote.2, hrun, fun hcode => ?_, hstdout, by decide +kernel⟩
  have hall := hsummary.code.1 hcode
  rw [hconversions] at hall
  exact absurd hall (by decide +kernel)

end Command

end PhpScript
