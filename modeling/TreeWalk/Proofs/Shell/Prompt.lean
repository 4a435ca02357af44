import TreeWalk.Proofs.Machine.Truncation
import TreeWalk.Proofs.Session.Layout
import TreeWalk.Proofs.Shell.Modes
import TreeWalk.Proofs.Token.Bytes

/-!
The prompt. It reads its input line by line and runs the lines as the units of one session, as
this session would go without it: it writes between the units, and no unit sees what the sink
already holds.
-/

namespace TreeWalk

namespace Shell

/-! ## The lines of the input -/

def lineEnd : UInt8 := 10

/-- A line of the input with `rest` behind it. There is one line end in it, as its last byte, and
only the last line of the input may have none. -/
structure IsLine (line rest : List UInt8) : Prop where
  nonempty : line ≠ []
  inner : lineEnd ∉ line.dropLast
  ended : rest ≠ [] → line.getLast? = some lineEnd

/-- What is read from an input: its lines in order, up to the end or to one that is no text. That
line and all behind it are left. -/
inductive Reads : List UInt8 → List String → List UInt8 → Prop
  | atEnd : Reads [] [] []
  | noText {line rest : List UInt8} : IsLine line rest → String.fromUTF8? line.toByteArray = none →
    Reads (line ++ rest) [] (line ++ rest)
  | line {line rest left : List UInt8} {source : String} {sources : List String} :
    IsLine line rest → String.fromUTF8? line.toByteArray = some source →
    Reads rest sources left → Reads (line ++ rest) (source :: sources) left

theorem IsLine.cons {b : UInt8} {line rest : List UInt8} (h : IsLine line rest)
    (hb : b ≠ lineEnd) : IsLine (b :: line) rest := by
  obtain ⟨c, more, rfl⟩ := List.exists_cons_of_ne_nil h.nonempty
  refine ⟨List.cons_ne_nil _ _, ?_, fun hrest => ?_⟩
  · rw [List.dropLast_cons_cons, List.mem_cons, not_or]
    exact ⟨hb.symm, h.inner⟩
  · rw [List.getLast?_cons_cons]
    exact h.ended hrest

/-- Only the last line has no end. -/
theorem isLine_single {b : UInt8} {rest : List UInt8} (h : rest ≠ [] → b = lineEnd) :
    IsLine [b] rest :=
  ⟨List.cons_ne_nil _ _, List.not_mem_nil, fun hrest => congrArg some (h hrest)⟩

theorem exists_isLine {bytes : List UInt8} (h : bytes ≠ []) :
    ∃ line rest, bytes = line ++ rest ∧ IsLine line rest := by
  induction bytes with
  | nil => exact absurd rfl h
  | cons b bytes ih =>
    by_cases hb : b = lineEnd
    · exact ⟨[b], bytes, rfl, isLine_single fun _ => hb⟩
    · cases bytes with
      | nil => exact ⟨[b], [], rfl, isLine_single fun hno => absurd rfl hno⟩
      | cons c bytes =>
        obtain ⟨line, rest, hsplit, hline⟩ := ih (List.cons_ne_nil _ _)
        exact ⟨b :: line, rest, congrArg (b :: ·) hsplit, hline.cons hb⟩

theorem splitLines_append {line rest : List UInt8} (h : IsLine line rest) :
    splitLines (line ++ rest) = line :: splitLines rest := by
  obtain ⟨hne, hinner, hended⟩ := h
  induction line with
  | nil => exact absurd rfl hne
  | cons b line ih =>
    cases line with
    | nil =>
      by_cases hb : b = lineEnd
      · exact if_pos hb
      · have hrest : rest = [] := by
          by_contra hrest
          exact hb (Option.some.inj (hended hrest))
        rw [hrest]
        exact if_neg hb
    | cons c line =>
      rw [List.dropLast_cons_cons, List.mem_cons, not_or] at hinner
      rw [List.getLast?_cons_cons] at hended
      have hmore := ih (List.cons_ne_nil _ _) hinner.2 hended
      have hb : ¬ b = 10 := fun hb => hinner.1 hb.symm
      rw [List.cons_append, splitLines, if_neg hb, hmore]

/-- Every input is read in some way. -/
theorem exists_reads (bytes : List UInt8) : ∃ sources left, Reads bytes sources left := by
  by_cases hne : bytes = []
  · exact ⟨[], [], hne ▸ .atEnd⟩
  · obtain ⟨line, rest, rfl, hline⟩ := exists_isLine hne
    cases htext : String.fromUTF8? line.toByteArray with
    | none => exact ⟨[], _, .noText hline htext⟩
    | some source =>
      have hshorter : rest.length < (line ++ rest).length := by
        have hlength := List.length_pos_iff.2 hline.nonempty
        rw [List.length_append]
        omega
      obtain ⟨sources, left, hmore⟩ := exists_reads rest
      exact ⟨_, _, .line hline htext hmore⟩
termination_by bytes.length

/-! ## The text of the lines -/

theorem toUTF8_of_fromUTF8? {bytes : ByteArray} {source : String}
    (h : String.fromUTF8? bytes = some source) : source.toUTF8 = bytes := by
  unfold String.fromUTF8? at h
  split at h
  · cases h
    rfl
  · cases h

/-- The lines are, put together, the input up to what is left. -/
theorem Reads.whole {bytes left : List UInt8} {sources : List String}
    (h : Reads bytes sources left) :
    bytes.toByteArray = (String.join sources).toUTF8 ++ left.toByteArray := by
  induction h with
  | atEnd => rfl
  | noText _ _ => exact ByteArray.empty_append.symm
  | line _ htext _ ih =>
    have happend : ∀ s t : String, (s ++ t).toUTF8 = s.toUTF8 ++ t.toUTF8 := fun _ _ => rfl
    rw [List.toByteArray_append, ih, String.join_cons, happend, toUTF8_of_fromUTF8? htext,
      ByteArray.append_assoc]

theorem lineEnd_notMem_utf8EncodeChar {c : Char} (h : c ≠ '\n') :
    lineEnd ∉ String.utf8EncodeChar c := by
  intro hmem
  have hchar : Char.ofUInt8 lineEnd = '\n' := by decide
  by_cases hlow : c < '\x80'
  · have hchars := List.mem_map_of_mem (f := Char.ofUInt8) hmem
    rw [Scan.utf8EncodeChar_low hlow, List.mem_singleton, hchar] at hchars
    exact h hchars.symm
  · have hhigh := Scan.high_bytes hlow hmem
    rw [hchar] at hhigh
    exact absurd hhigh (by decide)

/-- A text divides into lines between characters. -/
theorem encoded_split {cs : List Char} {line rest : List UInt8}
    (h : Scan.encoded cs = line ++ rest) (hline : IsLine line rest) :
    ∃ ds es, line = Scan.encoded ds ∧ rest = Scan.encoded es := by
  by_cases hrest : rest = []
  · subst hrest
    exact ⟨cs, [], by rw [h, List.append_nil], rfl⟩
  have hsplit := List.dropLast_append_getLast? _ (hline.ended hrest)
  have hinner := hline.inner
  rw [← hsplit, List.append_assoc] at h
  rw [← hsplit]
  generalize line.dropLast = front at h hinner
  clear hline hsplit
  induction cs generalizing front with
  | nil => cases front <;> cases h
  | cons c cs ih =>
    have hbytes : Scan.encoded (c :: cs) = String.utf8EncodeChar c ++ Scan.encoded cs :=
      List.flatMap_cons
    rw [hbytes] at h
    by_cases hc : c = '\n'
    · subst hc
      have hend : String.utf8EncodeChar '\n' = [lineEnd] := by decide
      rw [hend] at h
      cases front with
      | nil => exact ⟨['\n'], cs, by rw [List.nil_append, Scan.encoded]; exact hend.symm,
          (List.cons.inj h).2.symm⟩
      | cons b front =>
        have hb : lineEnd = b := (List.cons.inj h).1
        exact absurd (hb ▸ List.mem_cons_self) hinner
    · have hnone := lineEnd_notMem_utf8EncodeChar hc
      -- The line end is no byte of the character.
      have hfront : ∃ more, front = String.utf8EncodeChar c ++ more ∧
          Scan.encoded cs = more ++ ([lineEnd] ++ rest) := by
        rcases List.append_eq_append_iff.1 h with hfront | ⟨_ | ⟨b, more⟩, hbytes, hrest'⟩
        · exact hfront
        · rw [List.append_nil] at hbytes
          exact ⟨[], by rw [hbytes, List.append_nil], hrest'.symm⟩
        · rw [hbytes, List.mem_append, not_or] at hnone
          exact absurd ((List.cons.inj hrest').1 ▸ List.mem_cons_self) hnone.2
      obtain ⟨more, rfl, hmore⟩ := hfront
      rw [List.mem_append, not_or] at hinner
      obtain ⟨ds, es, hds, hes⟩ := ih _ hmore hinner.2
      refine ⟨c :: ds, es, ?_, hes⟩
      rw [List.append_assoc, hds, Scan.encoded, Scan.encoded, List.flatMap_cons]

/-- All of the input is read if and only if it is text. -/
theorem Reads.all_iff {bytes left : List UInt8} {sources : List String}
    (h : Reads bytes sources left) : left = [] ↔ bytes.toByteArray.IsValidUTF8 := by
  constructor
  · rintro rfl
    rw [h.whole]
    exact (String.join sources).isValidUTF8.append ByteArray.isValidUTF8_empty
  · intro hvalid
    have hencoded : ∃ cs, bytes = Scan.encoded cs := by
      obtain ⟨cs, hcs⟩ := hvalid
      exact ⟨cs, List.toByteArray_inj.1 hcs⟩
    clear hvalid
    induction h with
    | atEnd => rfl
    | noText hline htext =>
      obtain ⟨cs, hcs⟩ := hencoded
      obtain ⟨ds, _, rfl, _⟩ := encoded_split hcs.symm hline
      cases htext.symm.trans (dif_pos ⟨ds, rfl⟩)
    | line hline _ _ ih =>
      obtain ⟨cs, hcs⟩ := hencoded
      obtain ⟨_, es, _, hes⟩ := encoded_split hcs.symm hline
      exact ih ⟨es, hes⟩

end Shell

/-! ## A sink that already holds something -/

open Run

theorem State.Abreast.left_eq {p q : ByteArray} {n : Nat} {s t : State}
    (h : Abreast p q n s t) :
    ∃ b, t.sink.written = q ++ b ∧ s = { t with sink := .endless (p ++ b) } := by
  obtain ⟨heap, active, _⟩ := h
  exact ⟨_, rfl, rfl⟩

theorem SameResult.eq {ε α : Type} {x y : Except ε α} (h : SameResult Eq x y) : x = y := by
  cases h with
  | ok hab => exact congrArg Except.ok hab
  | error e => rfl

/-- A sink with room for all of the output makes no difference. -/
theorem Run.Truncates.inTime {α : Type} {m : Run α} {p q : ByteArray} {n : Nat}
    (hm : Truncates p q n m) {s t : State} (hst : State.Abreast p q n s t)
    (htime : (m.after s).sink.InTime p n) : SameEnd (State.Abreast p q n) Eq (m s) (m t) := by
  rcases hm.alike s t hst with hsame | ⟨_, _, hcut⟩
  · exact hsame
  · exact absurd htime hcut.late

theorem Run.SameEnd.flip {α : Type} {P : State → State → Prop}
    {r q : EStateM.Result Interrupt State α} (h : SameEnd P Eq r q) :
    SameEnd (fun t s => P s t) Eq q r := by
  cases h with
  | ok hab hst => exact .ok hab.symm hst
  | error e hst => exact .error e hst

/-- What a program comes to at a sink that takes everything is the same whatever the sink holds:
it is what it comes to at a sink with enough room. -/
theorem finish_endless {fuel : Nat} {program : List Stmt} {heap : Heap} {active : ScopeId}
    {p : ByteArray} {f : Finished Unit} (q : ByteArray)
    (hf : (interpret fuel program).finish ⟨heap, active, .endless p⟩ = some f) :
    ∃ b, f.state.sink = .endless (p ++ b) ∧
      (interpret fuel program).finish ⟨heap, active, .endless q⟩ =
        some ⟨f.result, { f.state with sink := .endless (q ++ b) }⟩ := by
  let room := ((interpret fuel program).after ⟨heap, active, .endless p⟩).sink.written.size +
    ((interpret fuel program).after ⟨heap, active, .endless q⟩).sink.written.size
  have hroom : ∀ r, r = p ∨ r = q → SameEnd (State.Abreast r .empty room) Eq
      (interpret fuel program ⟨heap, active, .endless r⟩)
      (interpret fuel program ⟨heap, active, .roomy .empty room⟩) := by
    intro r hr
    refine (interpret_truncates fuel program).inTime (State.abreast_start heap active) ?_
    unfold Sink.InTime
    rcases hr with rfl | rfl <;> omega
  obtain ⟨g, hg, hresult, hstates⟩ := (hroom p (.inl rfl)).finish hf
  obtain ⟨g', hg', hresult', hstates'⟩ := (hroom q (.inr rfl)).flip.finish hg
  obtain ⟨b, hwritten, hleft⟩ := hstates.left_eq
  obtain ⟨c, hwritten', hright⟩ := hstates'.left_eq
  rw [ByteArray.empty_append] at hwritten hwritten'
  obtain rfl : b = c := hwritten.symm.trans hwritten'
  refine ⟨b, by rw [hleft], hg'.trans (congrArg some ?_)⟩
  obtain ⟨result, _⟩ := f
  obtain ⟨result', _⟩ := g'
  cases hleft
  cases hright
  exact congrArg (Finished.mk · _) (hresult.eq.trans hresult'.eq).symm

namespace Session

/-- A unit comes to the same at a sink that holds something else. -/
theorem run_endless {fuel : Nat} {source : String} {heap : Heap} {active : ScopeId}
    {p : ByteArray} {ds : Diagnostics} {t : State} (q : ByteArray)
    (h : run fuel ⟨heap, active, .endless p⟩ source = some (ds, t)) :
    ∃ b, t.sink = .endless (p ++ b) ∧
      run fuel ⟨heap, active, .endless q⟩ source =
        some (ds, { t with sink := .endless (q ++ b) }) := by
  by_cases hreading : (Reading.program source).diagnostics = []
  · rw [run_accepted hreading] at h ⊢
    obtain ⟨f, hf, hran⟩ := Option.map_eq_some_iff.1 h
    cases hran
    obtain ⟨b, hsink, hf'⟩ := finish_endless q hf
    exact ⟨b, hsink, by rw [hf']; rfl⟩
  · rw [run_rejected hreading] at h ⊢
    cases h
    refine ⟨.empty, ?_, ?_⟩ <;> rw [ByteArray.append_empty]

theorem run_endless_none {fuel : Nat} {source : String} {heap : Heap} {active : ScopeId}
    {p : ByteArray} (q : ByteArray) (h : run fuel ⟨heap, active, .endless p⟩ source = none) :
    run fuel ⟨heap, active, .endless q⟩ source = none := by
  cases h' : run fuel ⟨heap, active, .endless q⟩ source with
  | none => rfl
  | some ran =>
    obtain ⟨_, _, hran⟩ := run_endless p h'
    cases h.symm.trans hran

/-- All that is reported about a unit is wrong with it: its text is rejected, or one of its own
statements fails, or nothing is reported. -/
def ReportsOwn (source : String) (unit : Diagnostics × State) : Prop :=
  ∃ s, Rejected source s unit.2 unit.1 ∨ Failed source s unit.2 unit.1 ∨
    Succeeded source s unit.2 unit.1

theorem runAll_reportsOwn {fuel : Nat} {s : State} {sources : List String}
    {units : List (Diagnostics × State)} (h : runAll fuel s sources = some units) :
    List.Forall₂ ReportsOwn sources units := by
  induction sources generalizing s units with
  | nil =>
    cases h
    exact .nil
  | cons source sources ih =>
    obtain ⟨ds, t, more, hfirst, hmore, rfl⟩ := runAll_cons.1 h
    exact .cons ⟨s, Ran.outcome ⟨fuel, hfirst⟩⟩ (ih hmore)

end Session

namespace Shell

/-! ## The prompt -/

def promptText : ByteArray := "> ".toUTF8

/-- The output of units, with the prompt before each of them and once more behind the last. -/
def interleaved : List ByteArray → ByteArray
  | [] => promptText
  | printed :: more => promptText ++ printed ++ interleaved more

/-- What is reported if some of the input could not be read. -/
def readFault (left : List UInt8) : String :=
  if left = [] then "" else errorText FileFault.notText.message

/-- What the prompt writes if the units of its session, which began at `s`, came to this, and `left`
was not read. -/
def sessionTranscript (s : State) (units : List (Diagnostics × State)) (left : List UInt8) :
    Transcript where
  exitCode := if left = [] then 0 else 1
  stdout := interleaved ((Session.transcript s units).map Prod.snd)
  stderr := String.join (units.map fun unit => reportText unit.1) ++ readFault left

theorem prompted_endless (heap : Heap) (active : ScopeId) (q : ByteArray) :
    prompted ⟨heap, active, .endless q⟩ = ⟨heap, active, .endless (q ++ promptText)⟩ := rfl

theorem sessionTranscript_cons (ds : Diagnostics) (heap : Heap) (active : ScopeId) (p : ByteArray)
    (heap' : Heap) (active' : ScopeId) (b : ByteArray) (units : List (Diagnostics × State))
    (left : List UInt8) :
    sessionTranscript ⟨heap, active, .endless p⟩ ((ds, ⟨heap', active', .endless (p ++ b)⟩) :: units)
      left =
    let more := sessionTranscript ⟨heap', active', .endless (p ++ b)⟩ units left
    ⟨more.exitCode, promptText ++ b ++ more.stdout, reportText ds ++ more.stderr⟩ := by
  have hprinted : (p ++ b).extract p.size (p ++ b).size = b :=
    ByteArray.extract_append_eq_right rfl ByteArray.size_append
  have htranscript : Session.transcript ⟨heap, active, .endless p⟩
      ((ds, ⟨heap', active', .endless (p ++ b)⟩) :: units) =
        (ds, b) :: Session.transcript ⟨heap', active', .endless (p ++ b)⟩ units :=
    congrArg (fun printed => (ds, printed) :: _) hprinted
  simp [sessionTranscript, htranscript, interleaved, String.append_assoc]

theorem lineText?_eq (line : List UInt8) : lineText? line = String.fromUTF8? line.toByteArray :=
  congrArg String.fromUTF8? (ByteArray.ext List.data_toByteArray.symm)

theorem runLine_noText {line : List UInt8} (h : String.fromUTF8? line.toByteArray = none)
    (fuel : Nat) (s : State) : runLine fuel s line = some (.error .notText) := by
  rw [runLine, lineText?_eq, h]

theorem runLine_text {line : List UInt8} {source : String}
    (h : String.fromUTF8? line.toByteArray = some source) (fuel : Nat) (s : State) :
    runLine fuel s line = (Session.run fuel s source).map .ok := by
  rw [runLine, lineText?_eq, h]

theorem readFault_eq {left : List UInt8} (h : left ≠ []) :
    readFault left = errorText FileFault.notText.message := if_neg h

/-- From any output on, the prompt goes on as the session does without it. -/
theorem promptFrom_reads {bytes left : List UInt8} {sources : List String}
    (h : Reads bytes sources left) (fuel : Nat) (heap : Heap) (active : ScopeId)
    (p q : ByteArray) (reports : Diagnostics) :
    promptFrom fuel ⟨heap, active, .endless q⟩ reports (splitLines bytes) =
      (Session.runAll fuel ⟨heap, active, .endless p⟩ sources).map fun units =>
        let transcript := sessionTranscript ⟨heap, active, .endless p⟩ units left
        ⟨transcript.exitCode, q ++ transcript.stdout, reportText reports ++ transcript.stderr⟩ := by
  induction h generalizing heap active p q reports with
  | atEnd =>
    rw [splitLines, promptFrom, prompted_endless, Session.runAll]
    simp [sessionTranscript, Session.transcript, interleaved, readFault, Sink.endless]
  | @noText line rest hline htext =>
    have hne : line ++ rest ≠ [] := List.append_ne_nil_of_left_ne_nil hline.nonempty rest
    rw [splitLines_append hline, promptFrom, runLine_noText htext, prompted_endless, Session.runAll]
    simp [sessionTranscript, Session.transcript, interleaved, readFault_eq hne, Sink.endless,
      hline.nonempty]
  | @line _ _ left source sources hline htext _ ih =>
    rw [splitLines_append hline, promptFrom, runLine_text htext, prompted_endless, Session.runAll]
    cases hrun : Session.run fuel ⟨heap, active, .endless p⟩ source with
    | none =>
      rw [Session.run_endless_none _ hrun]
      rfl
    | some ran =>
      obtain ⟨ds, t⟩ := ran
      obtain ⟨b, hsink, hrun'⟩ := Session.run_endless (q ++ promptText) hrun
      obtain ⟨heap', active', sink⟩ := t
      obtain rfl : sink = .endless (p ++ b) := hsink
      rw [hrun', Option.map_some]
      dsimp only
      rw [ih heap' active' (p ++ b)]
      simp only [Option.bind_eq_bind, Option.bind_some]
      cases Session.runAll fuel ⟨heap', active', .endless (p ++ b)⟩ sources with
      | none => rfl
      | some units =>
        have hunits := sessionTranscript_cons ds heap active p heap' active' b units left
        simp only [Option.map_some, Option.bind_some, Option.pure_def, hunits, reportText_append,
          ByteArray.append_assoc, String.append_assoc]

theorem toByteArray_toList (bytes : ByteArray) : bytes.toList.toByteArray = bytes := by
  have hloop : ∀ i read, ByteArray.toList.loop bytes i read =
      read.reverse ++ bytes.data.toList.drop i := by
    intro i read
    fun_induction ByteArray.toList.loop bytes i read with
    | case1 i read hlt ih =>
      have hlt' : i < bytes.data.toList.length := hlt
      have hget : bytes.get! i = bytes.data.toList[i] := getElem!_pos bytes.data i hlt
      rw [ih, List.drop_eq_getElem_cons hlt', hget, List.reverse_cons, List.append_assoc,
        List.singleton_append]
    | case2 i read hge =>
      have hall : bytes.data.toList.length ≤ i := Nat.le_of_not_lt hge
      rw [List.drop_eq_nil_of_le hall, List.append_nil]
  have hlist : bytes.toList = bytes.data.toList := hloop 0 []
  rw [hlist]
  exact ByteArray.ext List.data_toByteArray

/-- The prompt runs the lines of its input, up to the end or to the first that is no text, as the
units of one session. It writes what the session prints and reports, with a prompt in front of
every line and of the end, whatever becomes of the units. -/
theorem prompt_session (texts : Texts) (stdin : ByteArray) :
    (∃ sources left, Reads stdin.toList sources left) ∧
    ∀ sources left, Reads stdin.toList sources left →
      stdin = (String.join sources).toUTF8 ++ left.toByteArray ∧
      (left = [] ↔ stdin.IsValidUTF8) ∧
      ∀ fuel,
        Command.perform fuel texts stdin (.scripts []) =
          (Session.runAll fuel (.initial .unlimited) sources).map
            (sessionTranscript (.initial .unlimited) · left) ∧
        ∀ units, Session.runAll fuel (.initial .unlimited) sources = some units →
          List.Forall₂ Session.ReportsOwn sources units := by
  refine ⟨exists_reads stdin.toList, fun sources left h => ⟨?_, ?_, fun fuel => ⟨?_, ?_⟩⟩⟩
  · rw [← h.whole, toByteArray_toList]
  · rw [h.all_iff, toByteArray_toList]
  · have hprompt := promptFrom_reads h fuel Heap.empty Heap.globals .empty .empty []
    simp only [ByteArray.empty_append, reportText, List.map_nil, String.join_nil,
      String.empty_append] at hprompt
    exact hprompt
  · exact fun units hunits => Session.runAll_reportsOwn hunits

/-- A line that runs, one that is rejected, one that fails, and one that is no text. -/
def mixedInput : ByteArray := "print nil;\n)\nnil();\n".toUTF8 ++ [0xff, 10].toByteArray

def mixedLines : List String := ["print nil;\n", ")\n", "nil();\n"]

theorem reads_mixedInput :
    Reads mixedInput.toList mixedLines [0xff, 10] := by
  have hlist : mixedInput.toList = "print nil;\n".toUTF8.data.toList ++
      (")\n".toUTF8.data.toList ++ ("nil();\n".toUTF8.data.toList ++ [0xff, 10])) := by
    rw [← List.toByteArray_inj, toByteArray_toList]
    decide
  have htext : ∀ source : String,
      String.fromUTF8? source.toUTF8.data.toList.toByteArray = some source := by
    intro source
    rw [show source.toUTF8.data.toList.toByteArray = source.toUTF8 from
      ByteArray.ext List.data_toByteArray]
    exact dif_pos source.isValidUTF8
  rw [hlist]
  refine .line ⟨by decide, by decide, fun _ => by decide⟩ (htext "print nil;\n") ?_
  refine .line ⟨by decide, by decide, fun _ => by decide⟩ (htext ")\n") ?_
  refine .line ⟨by decide, by decide, fun _ => by decide⟩ (htext "nil();\n") ?_
  have hlast : IsLine [0xff, 10] [] := ⟨by decide, by decide, fun hno => absurd rfl hno⟩
  exact .noText hlast (by decide)

def mixedTranscript : Transcript where
  exitCode := 1
  stdout := "> nil\n> > > ".toUTF8
  stderr := "[line 1] Error at ')': Expected expression\nCan only call functions and classes.\n" ++
    "[line 1]\nError: stream did not contain valid UTF-8\n"

theorem runAll_mixedLines : ∃ units,
    Session.runAll 10 (.initial .unlimited) mixedLines = some units ∧
    sessionTranscript (.initial .unlimited) units [0xff, 10] = mixedTranscript := by
  have hprinting : "print nil;\n".toList =
      ['p', 'r', 'i', 'n', 't', ' ', 'n', 'i', 'l', ';', '\n'] := by decide
  have hstray : ")\n".toList = [')', '\n'] := by decide
  have hfailing : "nil();\n".toList = ['n', 'i', 'l', '(', ')', ';', '\n'] := by decide
  simp only [mixedLines, Session.runAll, Session.run, Reading.program, Reading.ofSource,
    Scan.tokens, Scan.reports, Scan.items, hprinting, hstray, hfailing]
  exact ⟨_, rfl, rfl⟩

/-- The line that is no text ends the prompt, and those before it do not. -/
theorem mixedInput_prompted : Reads mixedInput.toList mixedLines [0xff, 10] ∧
    ¬mixedInput.IsValidUTF8 ∧
    Command.perform 10 strayTexts mixedInput (.scripts []) = some mixedTranscript ∧
    ∃ units, Session.runAll 10 (.initial .unlimited) mixedLines = some units ∧
      List.Forall₂ Session.ReportsOwn mixedLines units := by
  obtain ⟨units, hran, htranscript⟩ := runAll_mixedLines
  obtain ⟨_, hvalid, hall⟩ := (prompt_session strayTexts mixedInput).2 _ _ reads_mixedInput
  obtain ⟨hprompt, hown⟩ := hall 10
  refine ⟨reads_mixedInput, fun hno => List.cons_ne_nil _ _ (hvalid.2 hno), ?_, units, hran,
    hown units hran⟩
  rw [hprompt, hran]
  exact congrArg some htranscript

end Shell

end TreeWalk
