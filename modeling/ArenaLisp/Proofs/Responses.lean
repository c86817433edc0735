import ArenaLisp.CommandLine
import ArenaLisp.Proofs.History
import ArenaLisp.Proofs.OneLine
import ArenaLisp.Proofs.Progress

/-!
# What the command line tells

If the log only lets errors through, nothing is ever recorded, and what the program writes is determined by
what becomes of its expressions: standard output has one line for each value, standard error one for each
failure, one for what cannot be read, and the statistics (`respond_tells`).  What becomes of the expressions
is told by a relation without bounds and records (`Program.Works`), which the loop of the program is shown
to follow.
-/

namespace ArenaLisp

open ReadAction

/-! ### The log -/

/-- No record is let through that is not an error, and there are no others. -/
theorem Log.add_eq_self {log : Log} (h : log.threshold = some .error) (r : Record) : log.add r = log := by
  rw [add, enabled, h]
  cases r <;> rfl

theorem Log.foldl_add_eq_self {log : Log} (h : log.threshold = some .error) (rs : List Record) :
    rs.foldl add log = log := by
  induction rs with
  | nil => rfl
  | cons r rs ih => rw [List.foldl_cons, add_eq_self h, ih]

/-- Work records nothing where only errors are let through. -/
theorem silent_frame : Frame fun m m₂ => m.log.threshold = some .error → m₂.log = m.log where
  refl _ _ := rfl
  trans h h' hm := (h' ((congrArg Log.threshold (h hm)).trans hm)).trans (h hm)
  allocated _ _ _ hm := Log.foldl_add_eq_self hm _
  record _ r hm := Log.add_eq_self hm r
  unpin h := h

/-- A machine that has recorded nothing, and will not. -/
def Machine.Silent (m : Machine) : Prop := m.log = .empty (some .error)

namespace Machine.Silent

variable {m m₂ : Machine} {s s₂ : Reading} {fuel : Nat} {expr : Value}

theorem takeRecords (h : m.Silent) : m.takeRecords = (#[], m) := by
  obtain ⟨arena, lexicon, roots, log⟩ := m
  obtain rfl : log = .empty (some .error) := h
  rfl

theorem of_frame (h : m.Silent) (hframe : m.log.threshold = some .error → m₂.log = m.log) :
    m₂.Silent :=
  (hframe (congrArg Log.threshold h)).trans h

theorem read (h : s.machine.Silent) (hread : ending (ReadAction.read.run s) = s₂) :
    s₂.machine.Silent := by
  rw [← hread, show s = ⟨s.machine, s.cursor⟩ from rfl, machine_ending]
  exact h.of_frame (Leaves.read silent_frame (fun _ _ _ => rfl) s.cursor s.machine)

theorem evalRender (h : m.Silent) (heval : ending ((Program.evalRender fuel expr).run m) = m₂) :
    m₂.Silent :=
  h.of_frame (heval ▸ Leaves.evalRender silent_frame fuel expr m)

end Machine.Silent

/-! ### What becomes of the expressions -/

namespace Program

/-- Expressions are read one after the other, and each is evaluated before the next is read: it has a value,
which is printed, or its evaluation fails. -/
inductive Works (fuel : Nat) : Reading → List Outcome → Reading → Prop
  | nil {s : Reading} : Works fuel s [] s
  | value {s s₃ : Reading} {m m₂ : Machine} {c : Cursor} {expr v : Value} {text : String}
    {outcomes : List Outcome} (hread : read.run s = .ok (some expr) ⟨m, c⟩)
    (heval : (eval fuel expr).run m = .ok v m₂) (hprint : m₂.render v = .ok text)
    (hrest : Works fuel ⟨m₂, c⟩ outcomes s₃) : Works fuel s (.value text :: outcomes) s₃
  | failed {s s₃ : Reading} {m m₂ : Machine} {c : Cursor} {expr : Value} {why : Failure}
    {outcomes : List Outcome} (hread : read.run s = .ok (some expr) ⟨m, c⟩)
    (heval : (eval fuel expr).run m = .error (.failure why) m₂)
    (hrest : Works fuel ⟨m₂, c⟩ outcomes s₃) : Works fuel s (.failed why :: outcomes) s₃

/-- No expression follows: the text is at its end, or cannot be read. -/
def Ends (s : Reading) : Option Failure → Reading → Prop
  | none, s₂ => read.run s = .ok none s₂
  | some why, s₂ => read.run s = .error (.failure why) s₂

variable {fuel k : Nat} {s s₂ : Reading} {reports : List Report} {m m₂ : Machine} {expr : Value}
  {outcomes : List Outcome}

theorem exists_of_evalRender_eq_ok {text : String} (h : (evalRender fuel expr).run m = .ok text m₂) :
    ∃ v, (eval fuel expr).run m = .ok v m₂ ∧ m₂.render v = .ok text := by
  rw [evalRender, Action.run_bind] at h
  cases heval : (eval fuel expr).run m with
  | error e m₃ =>
    rw [heval] at h
    cases h
  | ok v m₃ =>
    rw [heval] at h
    dsimp only at h
    rw [Action.render, Action.run_asking] at h
    cases hprint : m₃.render v with
    | error e =>
      rw [hprint] at h
      cases h
    | ok shown =>
      rw [hprint] at h
      cases h
      exact ⟨v, rfl, hprint⟩

/-- Printing does not fail. -/
theorem eval_of_evalRender_eq_error {why : Failure}
    (h : (evalRender fuel expr).run m = .error (.failure why) m₂) :
    (eval fuel expr).run m = .error (.failure why) m₂ := by
  rw [evalRender, Action.run_bind] at h
  cases heval : (eval fuel expr).run m with
  | error e m₃ =>
    rw [heval] at h
    cases h
    rfl
  | ok v m₃ =>
    rw [heval] at h
    dsimp only at h
    rw [Action.render, Action.run_asking] at h
    cases hprint : m₃.render v with
    | ok shown =>
      rw [hprint] at h
      cases h
    | error e =>
      have he := m₃.render_errsOnly (P := (· ≠ .failure why)) (fun _ => nofun) v e hprint
      rw [hprint] at h
      cases h
      exact absurd rfl he

/-- The loop reports what becomes of the expressions, and why the text cannot be read on. -/
theorem Loop.works (h : Loop fuel k s reports s₂) (hsilent : s.machine.Silent)
    (hfinish : ∀ r ∈ reports, ∀ fault, r.outcome ≠ .broken fault) :
    ∃ outcomes s' unread, Works fuel s outcomes s' ∧ Ends s' unread s₂ ∧
      reports = (outcomes ++ (unread.map Outcome.unread).toList).map (Report.mk #[]) := by
  induction h with
  | done hread => exact ⟨[], _, none, .nil, hread, rfl⟩
  | @unread s m c why hread =>
    have hm : m.Silent := hsilent.read (congrArg ending hread)
    rw [hm.takeRecords]
    exact ⟨[], s, some why, .nil, hread, rfl⟩
  | broken hread heval => exact absurd rfl (hfinish _ List.mem_cons_self _)
  | @failed k s s₃ m m₂ c expr why reports hread heval _ ih =>
    have hm : m.Silent := hsilent.read (congrArg ending hread)
    have hm₂ : m₂.Silent := hm.evalRender (congrArg ending heval)
    rw [hm₂.takeRecords] at ih ⊢
    obtain ⟨outcomes, s', unread, hworks, hends, rfl⟩ :=
      ih hm₂ fun r hr => hfinish r (List.mem_cons_of_mem _ hr)
    exact ⟨_, s', unread, .failed hread (eval_of_evalRender_eq_error heval) hworks, hends, rfl⟩
  | @value k s s₃ m m₂ c expr text reports hread heval _ ih =>
    have hm : m.Silent := hsilent.read (congrArg ending hread)
    have hm₂ : m₂.Silent := hm.evalRender (congrArg ending heval)
    rw [hm₂.takeRecords] at ih ⊢
    obtain ⟨outcomes, s', unread, hworks, hends, rfl⟩ :=
      ih hm₂ fun r hr => hfinish r (List.mem_cons_of_mem _ hr)
    obtain ⟨v, heval, hprint⟩ := exists_of_evalRender_eq_ok heval
    exact ⟨_, s', unread, .value hread heval hprint hworks, hends, rfl⟩

theorem Works.goesOn (h : Works fuel s outcomes s₂) : ∀ o ∈ outcomes, o.goesOn := by
  induction h with
  | nil => exact nofun
  | value _ _ _ _ ih | failed _ _ _ ih => exact List.forall_mem_cons.mpr ⟨rfl, ih⟩

end Program

/-- The print of a value, if there is one. -/
def Outcome.text? : Outcome → Option String
  | .value text => some text
  | .failed _ | .unread _ | .broken _ => none

/-- What is said of an evaluation that failed, with the number of its expression. -/
def Outcome.complaint? (number : Nat) : Outcome → Option String
  | .failed why => some s!"Expression {number}: {why.message}"
  | .value _ | .unread _ | .broken _ => none

/-- The prints of the values, in order. -/
def Program.values (outcomes : List Outcome) : List String := outcomes.filterMap Outcome.text?

/-- What is said of the evaluations that failed, numbered among all expressions, in order. -/
def Program.complaints (outcomes : List Outcome) : List String :=
  (outcomes.zipIdx 1).filterMap fun p => p.1.complaint? p.2

open Program

/-- What is found of outcomes fits on a line each. -/
theorem Program.Works.isLine {fuel : Nat} {s s₂ : Reading} {outcomes : List Outcome}
    (h : Works fuel s outcomes s₂) (hl : s.machine.lexicon.Plain) :
    s₂.machine.lexicon.Plain ∧ ∀ o ∈ outcomes, (∀ text ∈ o.text?, IsLine text) ∧
      ∀ number, ∀ line ∈ o.complaint? number, IsLine line := by
  induction h with
  | nil => exact ⟨hl, nofun⟩
  | @value s s₃ m m₂ c expr v text outcomes hread heval hprint _ ih =>
    have hm : m.lexicon.Plain := by
      have := hl.read
      rwa [hread] at this
    have hlexicon := (evalIn_complains m.lexicon fuel expr .top m rfl).of_ok heval
    obtain ⟨hl₃, hrest⟩ := ih (show m₂.lexicon.Plain by rwa [hlexicon])
    refine ⟨hl₃, List.forall_mem_cons.mpr ⟨⟨?_, nofun⟩, hrest⟩⟩
    rintro _ ⟨⟩
    exact Lexicon.Plain.render (hlexicon ▸ hm) hprint
  | @failed s s₃ m m₂ c expr why outcomes hread heval _ ih =>
    have hm : m.lexicon.Plain := by
      have := hl.read
      rwa [hread] at this
    have hlexicon : m₂.lexicon = m.lexicon := by
      have := evalIn_leaves lexicon_frame fuel expr .top m
      rwa [show (evalIn fuel expr .top).run m = _ from heval] at this
    obtain ⟨hl₃, hrest⟩ := ih (show m₂.lexicon.Plain by rwa [hlexicon])
    refine ⟨hl₃, List.forall_mem_cons.mpr ⟨⟨nofun, ?_⟩, hrest⟩⟩
    rintro number _ ⟨⟩
    have hwhy : why.Arises m.lexicon := (evalIn_complains m.lexicon fuel expr .top m rfl).of_error heval
    exact ((IsLine.append (by decide) (isLine_toString number)).append (by decide)).append
      (hwhy.isLine hm)

/-- So does what is said of a text that cannot be read. -/
theorem Program.Ends.isLine {s s₂ : Reading} {unread : Option Failure} (h : Ends s unread s₂) :
    ∀ why ∈ unread, IsLine why.message := by
  rintro why rfl
  have hread : read.run s = .error (.failure why) s₂ := h
  have hplace := (advances_read s).place
  rw [hread] at hplace
  rcases hplace with hwhy | ⟨o, hwhy⟩
  · rw [Stop.failure.inj hwhy]
    decide
  · rw [Stop.failure.inj hwhy]
    exact SyntaxError.isLine_blocked o _

/-! ### What is written -/

namespace Response

theorem stdout_append (xs ys : List Output) (code : UInt32) :
    stdout ⟨xs ++ ys, code⟩ = stdout ⟨xs, code⟩ ++ stdout ⟨ys, code⟩ := by
  rw [stdout, stdout, stdout, List.filterMap_append, String.join_append]

theorem stderr_append (xs ys : List Output) (code : UInt32) :
    stderr ⟨xs ++ ys, code⟩ = stderr ⟨xs, code⟩ ++ stderr ⟨ys, code⟩ := by
  rw [stderr, stderr, stderr, List.filterMap_append, String.join_append]

end Response

namespace CommandLine

theorem reportLines_eq (outcomes : List Outcome) (number : Nat) :
    reportLines number (outcomes.map (Report.mk #[])) =
      (outcomes.zipIdx number).map fun p => outcomeLine p.2 p.1 := by
  induction outcomes generalizing number with
  | nil => rfl
  | cons o outcomes ih =>
    rw [List.map_cons, reportLines, ih, List.zipIdx_cons, List.map_cons]
    rfl

/-- The end of a program is not recorded where only errors are let through. -/
theorem endLines_error (reports : List Report) : endLines (some .error) reports = [] := by
  rw [endLines, Log.add_eq_self rfl]
  split <;> rfl

theorem stdout_outcomeLine (outcomes : List Outcome) (number : Nat) (code : UInt32) :
    Response.stdout ⟨(outcomes.zipIdx number).map fun p => outcomeLine p.2 p.1, code⟩ =
      String.join ((values outcomes).map (· ++ "\n")) := by
  induction outcomes generalizing number with
  | nil => rfl
  | cons o outcomes ih =>
    rw [List.zipIdx_cons, List.map_cons, ← List.singleton_append, Response.stdout_append, ih]
    cases o with
    | value text => simp [values, Response.stdout, outcomeLine, Output.outLine, Outcome.text?]
    | failed why | unread why | broken fault =>
      simp [values, Response.stdout, outcomeLine, Output.errLine, Outcome.text?, List.filterMap_cons]

theorem stderr_outcomeLine {outcomes : List Outcome} (h : ∀ o ∈ outcomes, o.goesOn) (number : Nat)
    (code : UInt32) :
    Response.stderr ⟨(outcomes.zipIdx number).map fun p => outcomeLine p.2 p.1, code⟩ =
      String.join (((outcomes.zipIdx number).filterMap fun p => p.1.complaint? p.2).map (· ++ "\n")) := by
  induction outcomes generalizing number with
  | nil => rfl
  | cons o outcomes ih =>
    obtain ⟨ho, h⟩ := List.forall_mem_cons.mp h
    rw [List.zipIdx_cons, List.map_cons, ← List.singleton_append, Response.stderr_append, ih h]
    cases o with
    | value text =>
      simp [Response.stderr, outcomeLine, Output.outLine, Outcome.complaint?]
    | failed why =>
      simp [Response.stderr, outcomeLine, Output.errLine, Outcome.complaint?]
    | unread why | broken fault => cases ho

section Unread

variable (unread : Option Failure) (number : Nat) (code : UInt32)

/-- Nothing is said on standard output of a text that cannot be read. -/
theorem stdout_unread : Response.stdout ⟨((unread.map Outcome.unread).toList.zipIdx number).map
    fun p => outcomeLine p.2 p.1, code⟩ = "" := by
  cases unread <;> rfl

theorem stderr_unread : Response.stderr ⟨((unread.map Outcome.unread).toList.zipIdx number).map
    fun p => outcomeLine p.2 p.1, code⟩ =
      String.join ((unread.map Failure.message).toList.map (· ++ "\n")) := by
  cases unread <;> rfl

end Unread

/-- The statistics go to standard error. -/
theorem stdout_stats (showStats : Bool) (m : Machine) (code : UInt32) :
    Response.stdout ⟨if showStats then statsLines m else [], code⟩ = "" := by
  cases showStats <;> rfl

theorem stderr_stats (showStats : Bool) (m : Machine) (code : UInt32) :
    Response.stderr ⟨if showStats then statsLines m else [], code⟩ =
      if showStats then Response.stderr ⟨statsLines m, 0⟩ else "" := by
  cases showStats <;> rfl

end CommandLine

/-- The program that the options name: a file, or what comes on standard input. -/
def Options.Finds (options : Options) (stdin : ByteArray)
    (load : String → Except FileError ByteArray) (text : String) : Prop :=
  match options.source? with
  | none | some "-" => CommandLine.decode stdin = .ok text
  | some path => (load path).bind CommandLine.decode = .ok text

/-- What a response tells of a program, given what became of its expressions, why it cannot be read further,
if it cannot, and the machine in the end. -/
structure Response.Tells (r : Response) (showStats : Bool) (outcomes : List Outcome)
    (unread : Option Failure) (m : Machine) : Prop where
  stdout : r.stdout = String.join ((values outcomes).map (· ++ "\n"))
  stderr : r.stderr =
    String.join ((complaints outcomes ++ (unread.map Failure.message).toList).map (· ++ "\n")) ++
      if showStats then Response.stderr ⟨CommandLine.statsLines m, 0⟩ else ""
  exitCode : r.exitCode = 0 ↔ (∀ o ∈ outcomes, o.isValue) ∧ unread = none
  /-- What is told of an expression takes one line. -/
  isLine : ∀ line ∈ values outcomes ++ complaints outcomes ++ (unread.map Failure.message).toList,
    IsLine line

namespace CommandLine

variable {options : Options} {text : String}

theorem respond_eq_runText {stdin : ByteArray} {load : String → Except FileError ByteArray}
    (h : options.Finds stdin load text) (fuel : Nat) (threshold : Option Level) :
    Id.run (respond fuel threshold (pure stdin) (fun path => pure (load path)) (.run options)) =
      runText fuel threshold options text := by
  unfold Options.Finds at h
  unfold respond
  split at h
  case h_1 hsource =>
    simp [hsource, h]
  case h_2 hsource =>
    simp [hsource, h]
  case h_3 path hnone hsource =>
    simp [hsource, h]

/-- With the log at its default, a response tells what becomes of the program. -/
theorem runText_tells (fuel : Nat) {outcomes : List Outcome} {unread : Option Failure} {s s₂ : Reading}
    (hrun : Program.run fuel ⟨.new options.capacity (some .error), .ofString text⟩ =
      ((outcomes ++ (unread.map Outcome.unread).toList).map (Report.mk #[]), s₂))
    (hworks : Works fuel ⟨.new options.capacity (some .error), .ofString text⟩ outcomes s)
    (hends : Ends s unread s₂) :
    (runText fuel (some .error) options text).Tells options.showStats outcomes unread s₂.machine := by
  obtain ⟨-, hlines⟩ := hworks.isLine Lexicon.Plain.initial
  have hunread := hends.isLine
  rw [runText, hrun]
  dsimp only
  rw [reportLines_eq, endLines_error, List.append_nil, List.zipIdx_append, List.map_append]
  constructor
  case stdout =>
    rw [Response.stdout_append, Response.stdout_append, stdout_outcomeLine, stdout_unread, stdout_stats,
      String.append_empty, String.append_empty]
  case stderr =>
    rw [Response.stderr_append, Response.stderr_append, stderr_outcomeLine hworks.goesOn, stderr_unread,
      stderr_stats, List.map_append, String.join_append]
    rfl
  case exitCode =>
    cases unread with
    | none => simp
    | some why => simp [Outcome.isValue]
  case isLine =>
    simp only [List.forall_mem_append]
    refine ⟨⟨?_, ?_⟩, ?_⟩
    · intro text htext
      obtain ⟨o, ho, htext⟩ := List.mem_filterMap.mp htext
      exact (hlines o ho).1 text htext
    · intro line hline
      obtain ⟨⟨o, number⟩, ho, hline⟩ := List.mem_filterMap.mp hline
      exact (hlines o (List.fst_mem_of_mem_zipIdx ho)).2 number line hline
    · intro line hline
      obtain ⟨why, hwhy, rfl⟩ := Option.map_eq_some_iff.mp (Option.mem_toList.mp hline)
      exact hunread why hwhy

end CommandLine

/-- The command line reports faithfully.  For all options and every text that they name, if each evaluation
is worked through and the log is at its default: the expressions of the text are read and evaluated one
after the other until the text ends or cannot be read, a failure of evaluation notwithstanding, and nothing
is read or evaluated behind that; standard output has the prints of the values in order, a line for each;
standard error has a line for each evaluation that failed, with the number of its expression among all, then
why the text cannot be read, if it cannot, then the statistics, if they are asked for; and the exit code is
zero just if nothing failed. -/
theorem respond_tells (fuel : Nat) (options : Options) (stdin : ByteArray)
    (load : String → Except FileError ByteArray) (text : String) (hfinds : options.Finds stdin load text)
    (hfinish : ∀ r ∈ (Program.run fuel ⟨.new options.capacity (some .error), .ofString text⟩).1,
      ∀ fault, r.outcome ≠ .broken fault) :
    ∃ outcomes s unread s₂,
      Works fuel ⟨.new options.capacity (some .error), .ofString text⟩ outcomes s ∧
      Ends s unread s₂ ∧
      (Id.run (CommandLine.respond fuel (some .error) (pure stdin) (fun path => pure (load path))
        (.run options))).Tells options.showStats outcomes unread s₂.machine := by
  obtain ⟨k, hloop⟩ := exists_loop fuel ⟨.new options.capacity (some .error), .ofString text⟩
  obtain ⟨outcomes, s, unread, hworks, hends, hreports⟩ := hloop.works rfl hfinish
  refine ⟨outcomes, s, unread, _, hworks, hends, ?_⟩
  rw [CommandLine.respond_eq_runText hfinds]
  exact CommandLine.runText_tells fuel (Prod.ext hreports rfl) hworks hends

/-- A value, a failure and a text that cannot be read on, with statistics. -/
theorem respond_tells_quote_call_close :
    (⟨8, true, none⟩ : Options).Finds "'() (()) )".toUTF8 (fun _ => .error .notFound) "'() (()) )" ∧
    (Program.run 3 ⟨.new 8 (some .error), .ofString "'() (()) )"⟩).1 =
      [⟨#[], .value "nil"⟩, ⟨#[], .failed (.notCallable "nil")⟩,
        ⟨#[], .unread (.unreadable (.blocked .strayClose 9))⟩] ∧
    (∃ outcomes s unread s₂,
      Works 3 ⟨.new 8 (some .error), .ofString "'() (()) )"⟩ outcomes s ∧
      Ends s unread s₂ ∧
      (Id.run (CommandLine.respond 3 (some .error) (pure "'() (()) )".toUTF8)
        (fun _ => pure (.error .notFound)) (.run ⟨8, true, none⟩))).Tells true outcomes unread
          s₂.machine) ∧
    CommandLine.runText 3 (some .error) ⟨8, true, none⟩ "'() (()) )" =
      { outputs := [.out "nil\n", .err "Expression 2: Error: not callable: nil\n",
          .err "Parse error: unexpected ')' at offset 9\n",
          .err "  Heap: 3 of 8 cells used, 0 free, 0 collections, 0 cells reclaimed\n",
          .err "  Atoms: 11 interned, Roots: 0 pinned\n"]
        exitCode := 1 } := by
  have hfinds : (⟨8, true, none⟩ : Options).Finds "'() (()) )".toUTF8 (fun _ => .error .notFound)
      "'() (()) )" := by
    show CommandLine.decode _ = _
    decide +kernel
  have hrun : (Program.run 3 ⟨.new 8 (some .error), .ofString "'() (()) )"⟩).1 =
      [⟨#[], .value "nil"⟩, ⟨#[], .failed (.notCallable "nil")⟩,
        ⟨#[], .unread (.unreadable (.blocked .strayClose 9))⟩] := by
    decide +kernel
  refine ⟨hfinds, hrun, respond_tells 3 ⟨8, true, none⟩ _ _ _ hfinds ?_, by decide +kernel⟩
  rw [hrun]
  simp

end ArenaLisp
