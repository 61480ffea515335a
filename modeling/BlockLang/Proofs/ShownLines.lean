/-
  BlockLang.Proofs.ShownLines

  What the command shows of the lines that a program prints.

  The lines of a run are joined by newlines, an empty result is left out, and newlines at
  the end of any other one are replaced by a single newline.  So standard output is the
  printed lines, each followed by a newline, less newlines at the end.  Nothing is missing
  exactly when the last line ends in another character than a newline; in particular it
  must not be empty.
-/
import BlockLang.Command.Basic
import BlockLang.Proofs.Eval.Fuel
import BlockLang.Proofs.RunSafety
import Mathlib.Data.List.DropRight

namespace BlockLang.Command

/-! ## Trimming -/

theorem toList_trimNewlines (text : String) :
    (trimNewlines text).toList = text.toList.rdropWhile (· == '\n') := by
  rw [trimNewlines, String.toList_ofList, List.rdropWhile]

/-- Newlines at the end of a text are all that trimming takes away. -/
theorem exists_eq_trimNewlines_append (text : String) :
    ∃ n, text = trimNewlines text ++ String.ofList (List.replicate n '\n') := by
  have htaken : ∀ c ∈ text.toList.rtakeWhile (· == '\n'), c = '\n' := by
    intro c hc
    simpa using List.mem_rtakeWhile_imp hc
  refine ⟨(text.toList.rtakeWhile (· == '\n')).length, ?_⟩
  rw [← String.toList_inj, String.toList_append, toList_trimNewlines, String.toList_ofList,
    ← List.eq_replicate_of_mem htaken, List.rdropWhile_append_rtakeWhile]

theorem trimNewlines_eq_self_iff {text : String} :
    trimNewlines text = text ↔ ∀ c ∈ text.toList.getLast?, c ≠ '\n' := by
  rw [← String.toList_inj, toList_trimNewlines, List.rdropWhile_eq_self_iff]
  cases htext : text.toList using List.reverseRecOn with
  | nil => simp
  | append_singleton cs c => simp

theorem trimNewlines_trimNewlines_append (text : String) :
    trimNewlines (trimNewlines text ++ "\n") = trimNewlines text := by
  rw [← String.toList_inj, toList_trimNewlines, toList_trimNewlines, String.toList_append]
  rw [toList_trimNewlines]
  exact (List.rdropWhile_concat_pos _ _ _ rfl).trans (List.rdropWhile_idempotent _ _)

/-! ## Lines as text -/

/-- Some lines, each followed by a newline. -/
def linesText (lines : List String) : String := String.join (lines.map (· ++ "\n"))

/-- Joined lines lack the newline behind the last one. -/
theorem linesText_eq_intercalate {lines : List String} (h : lines ≠ []) :
    linesText lines = "\n".intercalate lines ++ "\n" := by
  induction lines with
  | nil => exact absurd rfl h
  | cons line lines ih =>
      cases lines with
      | nil => simp [linesText, String.join]
      | cons next lines =>
          have hrest := ih (List.cons_ne_nil _ _)
          have hcons : linesText (line :: next :: lines) =
              line ++ "\n" ++ linesText (next :: lines) := by
            rw [← String.toList_inj]
            simp [linesText]
          rw [hcons, hrest, String.intercalate_cons_cons]
          simp only [String.append_assoc]

/-- Whether the last of some lines, if there is one, ends in another character than a
    newline. -/
def LastLineEnds (lines : List String) : Prop :=
  ∀ line ∈ lines.getLast?, ∃ c ∈ line.toList.getLast?, c ≠ '\n'
  deriving Decidable

/-- Joined lines end as the last one does; behind an empty last line they end in the
    newline in front of it. -/
theorem lastLineEnds_iff {lines : List String} (h : lines ≠ []) :
    LastLineEnds lines ↔ ∃ c ∈ ("\n".intercalate lines).toList.getLast?, c ≠ '\n' := by
  obtain ⟨init, last, rfl⟩ := (List.eq_nil_or_concat' lines).resolve_left h
  have hlast : LastLineEnds (init ++ [last]) ↔ ∃ c ∈ last.toList.getLast?, c ≠ '\n' := by
    simp [LastLineEnds]
  rw [hlast]
  by_cases hinit : init = []
  · rw [hinit, List.nil_append, String.intercalate_singleton]
  · rw [String.intercalate_append_of_ne_nil hinit (List.cons_ne_nil _ _),
      String.intercalate_singleton, String.toList_append, List.getLast?_append]
    cases last.toList.getLast? with
    | none => simp
    | some c => simp

/-! ## What is shown -/

/-- What standard output shows of some lines. -/
structure ShowsLines (lines : List String) (stdout : String) : Prop where
  /-- Only newlines at the end are missing. -/
  missing : ∃ n, linesText lines = stdout ++ String.ofList (List.replicate n '\n')
  /-- Nothing is missing exactly when the last line ends in another character. -/
  complete : stdout = linesText lines ↔ LastLineEnds lines
  /-- Nothing is shown exactly when nothing is printed or a single empty line. -/
  empty : stdout = "" ↔ lines = [] ∨ lines = [""]
  /-- Anything that is shown ends in a newline with no empty line in front of it. -/
  ending : stdout = "" ∨ stdout = trimNewlines stdout ++ "\n"

theorem intercalate_eq_empty_iff {lines : List String} :
    "\n".intercalate lines = "" ↔ lines = [] ∨ lines = [""] := by
  match lines with
  | [] => simp
  | [line] => simp
  | line :: next :: lines => simp

theorem showsLines_shown (lines : List String) :
    ShowsLines lines (shown ("\n".intercalate lines)) := by
  rcases List.eq_nil_or_concat lines with rfl | hlines
  · exact ⟨⟨0, rfl⟩, by simp [shown, linesText, LastLineEnds], by simp [shown], .inl rfl⟩
  have hlines : lines ≠ [] := by
    obtain ⟨init, last, rfl⟩ := hlines
    simp
  have htext := linesText_eq_intercalate hlines
  have hends := lastLineEnds_iff hlines
  have hempty : "\n".intercalate lines = "" ↔ lines = [] ∨ lines = [""] :=
    intercalate_eq_empty_iff
  generalize "\n".intercalate lines = joined at *
  rw [shown]
  split
  · rename_i hjoined
    subst hjoined
    refine ⟨⟨1, htext⟩, ?_, iff_of_true rfl (hempty.mp rfl), .inl rfl⟩
    rw [hends, htext]
    simp
  · rename_i hjoined
    refine ⟨?_, ?_, ?_, .inr (by rw [trimNewlines_trimNewlines_append])⟩
    · -- The newline behind the last line changes places with those that were trimmed.
      obtain ⟨n, hn⟩ := exists_eq_trimNewlines_append joined
      refine ⟨n, ?_⟩
      have hswap : String.ofList (List.replicate n '\n') ++ "\n" =
          "\n" ++ String.ofList (List.replicate n '\n') := by
        rw [← String.toList_inj]
        simpa using List.replicate_succ'.symm.trans List.replicate_succ
      rw [htext, String.append_assoc, ← hswap, ← String.append_assoc, ← hn]
    · obtain ⟨c, hc⟩ : ∃ c, joined.toList.getLast? = some c := by
        rw [← Option.ne_none_iff_exists', Ne, List.getLast?_eq_none_iff]
        simpa using hjoined
      rw [hends, htext, String.append_left_inj, trimNewlines_eq_self_iff, hc]
      simp
    · rw [← hempty]
      simp [hjoined]

/-! ## The command -/

section

variable (library : Library)

/-- The settings that the command reads. -/
def settingsIn? (d : Directory) : Option String → Option Settings
  | none => some {}
  | some path => do
    let text ← (d.read path >>= decodeText).toOption
    (Settings.ofText library.readSettings text).toOption

/-- The program that the command reads. -/
def programIn? (stdin : ByteArray) (d : Directory) : Option String → Option String
  | none => (decodeText stdin).toOption
  | some path => (d.read path >>= decodeText).toOption

/-- Whether the command with these arguments carries out a program, under a limit for
    loops, and has no path to write its output to. -/
def Interprets (args : List String) (stdin : ByteArray) (d : Directory) (limit : Option Nat)
    (text : String) : Prop :=
  ∃ a settings, Arguments.parse args = .ok a ∧ settingsIn? library d a.config = some settings ∧
    (a.backend <|> settings.backend).getD "interpreter" = "interpreter" ∧
    (a.output <|> settings.output) = none ∧ settings.loopLimit = limit ∧
    programIn? stdin d a.input = some text

theorem decodeText_toUTF8 (text : String) : decodeText text.toUTF8 = .ok text := by
  have hvalid : String.fromUTF8? text.toUTF8 = some text := dif_pos text.isValidUTF8
  rw [decodeText, hvalid]

/-- A program on standard input is carried out if no argument says otherwise. -/
theorem interprets_standardInput (d : Directory) (text : String) :
    Interprets library [] text.toUTF8 d none text :=
  ⟨{}, {}, rfl, rfl, rfl, rfl, rfl, congrArg Except.toOption (decodeText_toUTF8 text)⟩

variable {library}

theorem runIn_readSettings {stdin : ByteArray} {d : Directory} {config : Option String}
    {settings : Settings} (h : settingsIn? library d config = some settings)
    (resume : Settings → Dialogue) :
    (readSettings library config resume).runIn stdin d = (resume settings).runIn stdin d := by
  cases config with
  | none =>
      obtain rfl := Option.some.inj h
      rfl
  | some path =>
      obtain ⟨text, htext, hsettings⟩ := Option.bind_eq_some_iff.mp h
      rw [readSettings, Dialogue.runIn, eq_ok_of_toOption htext]
      dsimp only
      rw [eq_ok_of_toOption hsettings]

theorem runIn_readProgram {stdin : ByteArray} {d : Directory} {input : Option String}
    {text : String} (h : programIn? stdin d input = some text) (resume : String → Dialogue) :
    (readProgram library input resume).runIn stdin d = (resume text).runIn stdin d := by
  cases input with
  | none => rw [readProgram, Dialogue.runIn, eq_ok_of_toOption h]
  | some path => rw [readProgram, Dialogue.runIn, eq_ok_of_toOption h]

/-- A command that carries out a program does nothing else with the files. -/
theorem Interprets.runIn_command {args : List String} {stdin : ByteArray} {d : Directory}
    {limit : Option Nat} {text : String} (h : Interprets library args stdin d limit text)
    (fuel : Nat) :
    (commandWith library fuel args).runIn stdin d =
      (process library .interpreter limit none fuel text).runIn stdin d := by
  obtain ⟨a, settings, hargs, hsettings, hbackend, houtput, rfl, htext⟩ := h
  have hname : (a.backend <|> settings.backend).getD Backend.interpreter.name =
      Backend.interpreter.name := hbackend
  rw [commandWith, hargs]
  dsimp only
  rw [runIn_readSettings hsettings, hname, Backend.ofName?_name]
  dsimp only
  rw [runIn_readProgram htext, houtput]

/-- What is shown of a run that ends, with its result or an error. -/
theorem stdout_answer {result : Except Stop Unit} (hend : result ≠ .error .outOfFuel)
    {p : Parsed} {limit : Option Nat} {x : Executable} (hx : p.prepare? limit = some x)
    {fuel : Nat} (hresult : (x.traced fuel).result = result) (stdin : ByteArray) (d : Directory) :
    ((answer library none (p.interpret limit fuel)).runIn stdin d).1.stdout =
      shown ("\n".intercalate (printedLines (x.traced fuel).events)) := by
  rw [Parsed.interpret, hx]
  dsimp only
  rw [x.outcome_eq_traced, hresult]
  match result, hend with
  | .ok (), _ => rfl
  | .error (.error cause), _ => rfl
  | .error .outOfFuel, hend => exact absurd rfl hend

/-- What the command shows of a program that it carries out. -/
theorem Interprets.stdout_command {args : List String} {stdin : ByteArray} {d : Directory}
    {limit : Option Nat} {text : String} (h : Interprets library args stdin d limit text)
    {p : Parsed} (hp : parse text = .ok p) {x : Executable} (hx : p.prepare? limit = some x)
    {fuel : Nat} (hend : (x.traced fuel).result ≠ .error .outOfFuel) :
    ((commandWith library fuel args).runIn stdin d).1.stdout =
      shown ("\n".intercalate (printedLines (x.traced fuel).events)) := by
  have hprocess : process library .interpreter limit none fuel text =
      answer library none (p.interpret limit fuel) := by
    rw [process, hp]
    rfl
  rw [h.runIn_command, hprocess, stdout_answer hend hx rfl]

end

/-- Every accepted program can be carried out by the command.  When its run ends, with its
    result or an error, standard output shows the printed lines, each followed by a newline,
    less newlines at the end; it shows them all exactly when the last line ends in another
    character than a newline.  No library changes that. -/
theorem printed_lines_shown {text : String} {p : Parsed} (hp : parse text = .ok p)
    (limit : Option Nat) :
    ∃ x, p.prepare? limit = some x ∧
      ∀ fuel, (x.traced fuel).result ≠ .error .outOfFuel →
        ∀ library args stdin d, Interprets library args stdin d limit text →
          ShowsLines (printedLines (x.traced fuel).events)
            ((commandWith library fuel args).runIn stdin d).1.stdout := by
  obtain ⟨root, hroot⟩ := exists_readsText hp
  obtain ⟨x, hx⟩ := hroot.wellScoped.exists_prepare limit
  refine ⟨x, hx, fun fuel hend library args stdin d hargs => ?_⟩
  rw [hargs.stdout_command hp hx hend]
  exact showsLines_shown _

/-! ## Two programs -/

/-- A program that prints two lines, the first of them empty, and then divides by zero. -/
def brokenText : String := "print(\"\")\nprint(\"a\")\nprint(1 / 0)\n"

/-- A call of `print` at a line. -/
def printItem (line : Nat) (e : Expr) : Item := .call ⟨⟨"print", line⟩, .builtin .print⟩ [e]

/-- The tree of `brokenText`. -/
def brokenItems : List Item :=
  [ printItem 1 (.literal (.string "")), printItem 2 (.literal (.string "a")),
    printItem 3 (.binary .multiplication (.literal (.integer 1)) ⟨.slash, "/", 3⟩
      (.literal (.integer 0))) ]

theorem lines_before_error_shown :
    parse brokenText = .ok ⟨brokenItems, {}⟩ ∧
      (Parsed.mk brokenItems {}).prepare? none = some ⟨brokenItems, {}, #[], none⟩ ∧
      (Executable.traced ⟨brokenItems, {}, #[], none⟩ 0).result =
        .error (.error (.divisionByZero 3)) ∧
      ∀ library, Interprets library [] brokenText.toUTF8 ⟨[]⟩ none brokenText ∧
        ((commandWith library 0 []).runIn brokenText.toUTF8 ⟨[]⟩).1.stdout = "\na\n" := by
  have hparse : parse brokenText = .ok ⟨brokenItems, {}⟩ := by cbv
  refine ⟨hparse, rfl, rfl, fun library => ?_⟩
  have hargs := interprets_standardInput library ⟨[]⟩ brokenText
  obtain ⟨x, hx, hshown⟩ := printed_lines_shown hparse none
  obtain rfl : ⟨brokenItems, {}, #[], none⟩ = x := Option.some.inj hx
  have hend : (Executable.traced ⟨brokenItems, {}, #[], none⟩ 0).result ≠ .error .outOfFuel :=
    fun h => Stop.noConfusion (Except.error.inj h)
  have hlast : LastLineEnds ["", "a"] := by simp [LastLineEnds]
  exact ⟨hargs, (hshown 0 hend _ _ _ _ hargs).complete.mpr hlast⟩

/-- A program that prints an empty line. -/
def emptyLineText : String := "print(\"\")\n"

/-- An empty line that is printed alone is not shown at all. -/
theorem empty_line_not_shown :
    ∃ p x, parse emptyLineText = .ok p ∧ p.prepare? none = some x ∧
      (x.traced 0).result = .ok () ∧ (x.traced 0).events = [.printed (.string "")] ∧
      ∀ library, Interprets library [] emptyLineText.toUTF8 ⟨[]⟩ none emptyLineText ∧
        ((commandWith library 0 []).runIn emptyLineText.toUTF8 ⟨[]⟩).1.stdout ≠
          linesText (printedLines (x.traced 0).events) := by
  have hparse : parse emptyLineText = .ok ⟨[printItem 1 (.literal (.string ""))], {}⟩ := by cbv
  refine ⟨_, ⟨[printItem 1 (.literal (.string ""))], {}, #[], none⟩, hparse, rfl, rfl, rfl,
    fun library => ?_⟩
  have hargs := interprets_standardInput library ⟨[]⟩ emptyLineText
  have hend : (Executable.traced ⟨[printItem 1 (.literal (.string ""))], {}, #[], none⟩ 0).result ≠
      .error .outOfFuel := by
    intro h
    cases h
  refine ⟨hargs, ?_⟩
  rw [hargs.stdout_command hparse rfl hend]
  decide

end BlockLang.Command
