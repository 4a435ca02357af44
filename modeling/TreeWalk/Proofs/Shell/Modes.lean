import TreeWalk.Shell.Command
import TreeWalk.Proofs.Session.Outcomes

/-!
The commands on one file. All of them read the text first, and in the same way, so that they agree on
what is wrong with it: whatever is reported about the text makes a command exit without output, and
the reports of the scan come first.
-/

namespace TreeWalk

/-! ## What is reported about a text -/

theorem Scan.reports_ne_nil {source : String} :
    reports source ≠ [] ↔ ∃ fault line, Item.fault fault line ∈ items source := by
  constructor
  · intro h
    obtain ⟨r, hr⟩ := List.exists_mem_of_ne_nil _ h
    obtain ⟨item, hmem, hitem⟩ := List.mem_filterMap.1 hr
    cases item with
    | token t => cases hitem
    | fault fault line => exact ⟨fault, line, hmem⟩
  · rintro ⟨fault, line, hmem⟩
    exact List.ne_nil_of_mem (List.mem_filterMap.2 ⟨_, hmem, rfl⟩)

theorem Outcome.exitCode_eq_syntaxError {outcome : Outcome} :
    outcome.exitCode = 65 ↔ outcome = .syntaxError := by
  cases outcome <;> decide

namespace Shell

theorem reportText_append (ds es : Diagnostics) :
    reportText (ds ++ es) = reportText ds ++ reportText es := by
  simp [reportText, String.join_append]

theorem reportText_ne_empty {ds : Diagnostics} (h : ds ≠ []) : reportText ds ≠ "" := by
  obtain ⟨r, more, rfl⟩ := List.exists_cons_of_ne_nil h
  intro hempty
  have hchars := congrArg String.toList hempty
  simp [reportText] at hchars

/-! ## Texts that are not accepted -/

/-- What a command writes if this is reported about the text. -/
def rejection (ds : Diagnostics) : Transcript :=
  ⟨Outcome.syntaxError.exitCode, .empty, reportText ds⟩

section

variable {source : String}

theorem runFile_rejected (h : (Reading.program source).diagnostics ≠ []) (fuel : Nat) :
    runFile fuel source = some (rejection (Reading.program source).diagnostics) := by
  have houtcome := (Session.reading_aboutText source).outcome h
  rw [runFile, Session.run_rejected h]
  exact congrArg (fun outcome => some (Transcript.mk outcome.exitCode _ _)) houtcome

theorem parseFile_rejected (h : (Reading.program source).diagnostics ≠ []) :
    parseFile source = rejection (Reading.program source).diagnostics := by
  have habout := Session.reading_aboutText source
  rw [parseFile, if_pos (habout.hadSyntaxError_iff.2 h), habout.outcome h]
  rfl

theorem parseFile_accepted (h : (Reading.program source).diagnostics = []) :
    parseFile source = ⟨0, linesText ((Reading.program source).tree.map (·.text)), ""⟩ := by
  rw [parseFile, if_neg fun hno => (Session.hadSyntaxError_reading source).1 hno h, h]
  rfl

theorem evaluateFile_rejected (h : (Reading.expression source).diagnostics ≠ []) (fuel : Nat) :
    evaluateFile fuel source = some (rejection (Reading.expression source).diagnostics) := by
  have habout : Session.AboutText (Reading.expression source).diagnostics :=
    Session.ofSource_aboutText Grammar.soleExpression source
  have hevaluated : Session.evaluate fuel source =
      some (.error (Reading.expression source).diagnostics) := by
    unfold Session.evaluate
    dsimp only
    rw [habout.hadSyntaxError_iff.2 h]
    cases (Reading.expression source).tree <;> rfl
  unfold evaluateFile
  rw [hevaluated]
  dsimp only
  rw [habout.outcome h]
  rfl

/-- A run that ends exits so only if the text is not accepted. -/
theorem exitCode_runFile {fuel : Nat} {t : Transcript} (h : runFile fuel source = some t) :
    t.exitCode = 65 ↔ (Reading.program source).diagnostics ≠ [] := by
  by_cases hreading : (Reading.program source).diagnostics = []
  · refine iff_of_false ?_ (not_not_intro hreading)
    rw [runFile, Session.run_accepted hreading] at h
    cases hfinish : (interpret fuel (Reading.program source).tree).finish (.initial .unlimited) with
    | none =>
      rw [hfinish] at h
      cases h
    | some finished =>
      rw [hfinish] at h
      cases h
      rw [Outcome.exitCode_eq_syntaxError]
      exact Session.outcome_failures finished.result
  · rw [runFile_rejected hreading] at h
    cases h
    exact iff_of_true rfl hreading

theorem exitCode_tokenizeFile (json : Bool) :
    (tokenizeFile json source).exitCode = 65 ↔ Scan.reports source ≠ [] := by
  have hcode : (tokenizeFile json source).exitCode = (Scan.reports source).outcome.exitCode := rfl
  rw [hcode, Outcome.exitCode_eq_syntaxError]
  constructor
  · intro houtcome hreports
    rw [hreports] at houtcome
    cases houtcome
  · exact (Session.scan_aboutText source).outcome

end

/-! ## Commands -/

/-- The texts of files, as far as they could be read. -/
abbrev Texts := String → Except FileFailure String

/-- With enough fuel the command ends and writes this. -/
def Writes (texts : Texts) (stdin : ByteArray) (command : Command) (t : Transcript) : Prop :=
  ∃ fuel, command.perform fuel texts stdin = some t

/-- Parsing a file evaluates nothing and writes the trees, unless the text is rejected: if and only
if running the file rejects it too, with the same reports and no more output. -/
structure ParsesAlike (texts : Texts) (stdin : ByteArray) (file source : String)
    (parsed : Transcript) : Prop where
  written : ∀ fuel, Command.perform fuel texts stdin (.parse file) = some parsed
  code : parsed.exitCode ≠ Outcome.runtimeError.exitCode
  accepted : parsed.exitCode ≠ 65 →
    parsed = ⟨0, linesText ((Reading.program source).tree.map (·.text)), ""⟩
  rejected : parsed.exitCode = 65 ↔
    ∃ t, Writes texts stdin (.scripts [file]) t ∧ t.exitCode = 65
  same : parsed.exitCode = 65 → ∀ t, Writes texts stdin (.scripts [file]) t →
    parsed.stdout = .empty ∧ t.stdout = .empty ∧ t.stderr = parsed.stderr

/-- Listing the tokens of a file finds the faults of its scan. If there are any, all other modes
reject the text, with more reports perhaps behind the same ones. -/
structure ListsAlike (texts : Texts) (stdin : ByteArray) (file source : String) (json : Bool)
    (listed : Transcript) : Prop where
  written : ∀ fuel, Command.perform fuel texts stdin (.tokenize file json) = some listed
  rejected : listed.exitCode = 65 ↔
    ∃ fault line, Scan.Item.fault fault line ∈ Scan.items source
  reported : listed.exitCode = 65 → listed.stderr ≠ ""
  first : listed.exitCode = 65 → ∀ command ∈ [Command.parse file, .evaluate file, .scripts [file]],
    ∃ t rest, (∀ fuel, command.perform fuel texts stdin = some t) ∧ t.exitCode = 65 ∧
      t.stderr = listed.stderr ++ rest

section

variable {texts : Texts} {file source : String} (h : texts file = .ok source)
  (stdin : ByteArray)
include h

theorem perform_scripts (fuel : Nat) :
    Command.perform fuel texts stdin (.scripts [file]) = runFile fuel source := by
  rw [Command.perform, h, onSource]

theorem perform_parse (fuel : Nat) :
    Command.perform fuel texts stdin (.parse file) = some (parseFile source) := by
  rw [Command.perform, h, onSource]

theorem perform_tokenize (fuel : Nat) (json : Bool) :
    Command.perform fuel texts stdin (.tokenize file json) =
      some (tokenizeFile json source) := by
  rw [Command.perform, h, onSource]

theorem perform_evaluate (fuel : Nat) :
    Command.perform fuel texts stdin (.evaluate file) = evaluateFile fuel source := by
  rw [Command.perform, h, onSource]

theorem writes_scripts {t : Transcript} : Writes texts stdin (.scripts [file]) t ↔
    ∃ ds s, Session.Ran (.initial .unlimited) source ds s ∧
      t = ⟨ds.outcome.exitCode, s.sink.written, reportText ds⟩ := by
  simp only [Writes, perform_scripts h, runFile]
  constructor
  · rintro ⟨fuel, ht⟩
    cases hrun : Session.run fuel (.initial .unlimited) source with
    | none =>
      rw [hrun] at ht
      cases ht
    | some ran =>
      rw [hrun] at ht
      cases ht
      exact ⟨ran.1, ran.2, ⟨fuel, hrun⟩, rfl⟩
  · rintro ⟨ds, s, ⟨fuel, hrun⟩, rfl⟩
    exact ⟨fuel, by rw [hrun]⟩

theorem parsesAlike : ParsesAlike texts stdin file source (parseFile source) := by
  have hruns : ∀ t, Writes texts stdin (.scripts [file]) t → ∃ fuel, runFile fuel source = some t :=
    fun t ⟨fuel, ht⟩ => ⟨fuel, perform_scripts h stdin fuel ▸ ht⟩
  by_cases hreading : (Reading.program source).diagnostics = []
  · have hcode : (parseFile source).exitCode ≠ 65 := by
      rw [parseFile_accepted hreading]
      exact Nat.zero_ne_add_one 64
    have hnever : (parseFile source).exitCode ≠ Outcome.runtimeError.exitCode := by
      rw [parseFile_accepted hreading]
      exact Nat.zero_ne_add_one 69
    refine ⟨perform_parse h stdin, hnever, fun _ => parseFile_accepted hreading,
      iff_of_false hcode ?_, fun hno => absurd hno hcode⟩
    rintro ⟨t, ht, hno⟩
    obtain ⟨fuel, hrun⟩ := hruns t ht
    exact (exitCode_runFile hrun).1 hno hreading
  · have hrejected := parseFile_rejected hreading
    have hcode : (parseFile source).exitCode = 65 := by rw [hrejected]; rfl
    have hnever : (parseFile source).exitCode ≠ Outcome.runtimeError.exitCode := by
      rw [hcode]
      decide
    refine ⟨perform_parse h stdin, hnever, fun hno => absurd hcode hno, iff_of_true hcode ?_, ?_⟩
    · refine ⟨_, ⟨0, ?_⟩, hcode⟩
      rw [perform_scripts h, runFile_rejected hreading, hrejected]
    · intro _ t ht
      obtain ⟨fuel, hrun⟩ := hruns t ht
      rw [runFile_rejected hreading] at hrun
      cases hrun
      rw [hrejected]
      exact ⟨rfl, rfl, rfl⟩

theorem listsAlike (json : Bool) :
    ListsAlike texts stdin file source json (tokenizeFile json source) := by
  have hcode : (tokenizeFile json source).exitCode = 65 ↔ Scan.reports source ≠ [] :=
    exitCode_tokenizeFile json
  have hstderr : (tokenizeFile json source).stderr = reportText (Scan.reports source) := rfl
  refine ⟨fun fuel => perform_tokenize h stdin fuel json, hcode.trans Scan.reports_ne_nil, ?_, ?_⟩
  · exact fun hno => reportText_ne_empty (hcode.1 hno)
  intro hno
  have hreports := hcode.1 hno
  -- Whatever the tokens are read as, the reports of the scan come first.
  have hfirst : ∀ {α : Type} (parse : List Token → Grammar.Parsed α),
      (Reading.ofSource parse source).diagnostics ≠ [] ∧
        ∃ rest, reportText (Reading.ofSource parse source).diagnostics =
          (tokenizeFile json source).stderr ++ rest :=
    fun parse => ⟨List.append_ne_nil_of_left_ne_nil hreports _, _, reportText_append _ _⟩
  obtain ⟨hprogram, rest, hrest⟩ := hfirst Grammar.program
  obtain ⟨hexpression, rest', hrest'⟩ := hfirst Grammar.soleExpression
  refine List.forall_mem_cons.2 ⟨?_, List.forall_mem_cons.2 ⟨?_, List.forall_mem_singleton.2 ?_⟩⟩
  · refine ⟨rejection (Reading.program source).diagnostics, rest, fun fuel => ?_, rfl, hrest⟩
    rw [perform_parse h, parseFile_rejected hprogram]
  · refine ⟨rejection (Reading.expression source).diagnostics, rest', fun fuel => ?_, rfl, hrest'⟩
    rw [perform_evaluate h, evaluateFile_rejected hexpression]
  · refine ⟨rejection (Reading.program source).diagnostics, rest, fun fuel => ?_, rfl, hrest⟩
    rw [perform_scripts h, runFile_rejected hprogram]

end

/-- A file is run as one unit of a fresh session, and the other modes find the same faults in its
text as the run does. -/
theorem modes_agree {texts : Texts} {file source : String} {contents : ByteArray}
    (hfile : texts file = sourceText file contents)
    (htext : String.fromUTF8? contents = some source) (stdin : ByteArray) :
    (∀ t, Writes texts stdin (.scripts [file]) t ↔ ∃ ds s,
      Session.Ran (.initial .unlimited) source ds s ∧
        t = ⟨ds.outcome.exitCode, s.sink.written, reportText ds⟩) ∧
    (∃ parsed, ParsesAlike texts stdin file source parsed) ∧
    ∀ json, ∃ listed, ListsAlike texts stdin file source json listed := by
  have hsource : texts file = .ok source := by rw [hfile, sourceText, htext]
  exact ⟨fun t => writes_scripts hsource stdin, ⟨_, parsesAlike hsource stdin⟩,
    fun json => ⟨_, listsAlike hsource stdin json⟩⟩

/-- Every file holds one character, which begins no token. -/
def strayTexts : Texts := fun file => sourceText file "@".toUTF8

theorem strayTexts_rejected :
    strayTexts "a" = sourceText "a" "@".toUTF8 ∧ String.fromUTF8? "@".toUTF8 = some "@" ∧
    ∃ parsed listed, ParsesAlike strayTexts .empty "a" "@" parsed ∧
      ListsAlike strayTexts .empty "a" "@" false listed ∧ listed.exitCode = 65 ∧
      parsed.exitCode = 65 ∧ listed.stderr ≠ "" ∧ ∃ rest, parsed.stderr = listed.stderr ++ rest := by
  have htext : String.fromUTF8? "@".toUTF8 = some "@" := by decide
  have hfile : strayTexts "a" = sourceText "a" "@".toUTF8 := rfl
  obtain ⟨_, ⟨parsed, hparsed⟩, hlisted⟩ := modes_agree hfile htext .empty
  obtain ⟨listed, hlisted⟩ := hlisted false
  have hfault : Scan.Item.fault (.unexpected '@') 1 ∈ Scan.items "@" := by
    have hchars : "@".toList = ['@'] := by decide
    rw [Scan.items, hchars]
    exact List.mem_cons_self
  have hcode : listed.exitCode = 65 := hlisted.rejected.2 ⟨_, _, hfault⟩
  obtain ⟨t, rest, hwritten, hrejected, hstderr⟩ := hlisted.first hcode _ List.mem_cons_self
  obtain rfl : parsed = t := Option.some.inj ((hparsed.written 0).symm.trans (hwritten 0))
  exact ⟨hfile, htext, parsed, listed, hparsed, hlisted, hcode, hrejected,
    hlisted.reported hcode, rest, hstderr⟩

end Shell

end TreeWalk
