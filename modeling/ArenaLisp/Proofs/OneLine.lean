import ArenaLisp.Proofs.Clean
import ArenaLisp.Proofs.Failures
import ArenaLisp.Proofs.Vocabulary

/-!
# Texts that fit on a line

No name that is read has a line break in it, since a line break is a delimiter.  So if the names of the
lexicon fit on a line each, they do so for ever, and the print of every value and the message of every
failure fits on a line as well (`Lexicon.Plain.render`, `Failure.Arises.isLine`).
-/

namespace ArenaLisp

/-- Whether a text fits on a line. -/
def IsLine (s : String) : Prop := '\n' ∉ s.toList

instance : DecidablePred IsLine := fun s => inferInstanceAs (Decidable ('\n' ∉ s.toList))

theorem IsLine.append {s t : String} (hs : IsLine s) (ht : IsLine t) : IsLine (s ++ t) := by
  rw [IsLine, String.toList_append, List.mem_append]
  exact fun h => h.elim hs ht

/-- The digits of a number are no line breaks. -/
theorem isLine_toString (n : Nat) : IsLine (toString n) := by
  intro h
  have hdigit := Nat.isDigit_of_mem_toDigits (b := 10) (n := n) (c := '\n') (by decide) (by decide)
    (by simpa [Nat.repr] using h)
  exact absurd hdigit (by decide)

/-- A lexicon in which every name fits on a line. -/
def Lexicon.Plain (l : Lexicon) : Prop := ∀ s ∈ l.names.toList, IsLine s

variable {l : Lexicon}

/-! ### Names -/

/-- The names on the way through a text fit on a line. -/
theorem Grammar.Scan.isLine {cs rest : List Char} {ss : List String} (h : Scan cs ss rest) :
    ∀ s ∈ ss, IsLine s := by
  induction h with
  | done => exact nofun
  | mark _ _ ih => exact ih
  | @name w _ _ _ hw _ _ ih =>
    refine List.forall_mem_cons.mpr ⟨fun hbreak => ?_, ih⟩
    rw [String.toList_ofList] at hbreak
    exact absurd (hw.2.2.2 '\n' hbreak) (by decide)

namespace Lexicon

theorem mem_of_mem_fresh {s : String} {ss : List String} (h : s ∈ l.fresh ss) : s ∈ ss :=
  (List.mem_filter.mp (List.mem_eraseDups.mp h)).1

namespace Plain

theorem initial : initial.Plain := by
  unfold Plain
  decide

theorem internAll (h : l.Plain) {ss : List String} (hss : ∀ s ∈ ss, IsLine s) :
    (l.internAll ss).2.Plain := by
  intro s hs
  rw [names_internAll, List.mem_append] at hs
  exact hs.elim (h s) fun hs => hss s (mem_of_mem_fresh hs)

theorem name (h : l.Plain) (i : AtomId) : IsLine (l.name i) := by
  unfold Lexicon.name
  rw [Array.getD_eq_getD_getElem?]
  cases hi : l.names[i.index.toNat]? with
  | none => exact (by decide : IsLine unknownName)
  | some s => exact h s (Array.mem_toList_iff.mpr (Array.mem_of_getElem? hi))

/-- Reading adds plain names. -/
theorem read {s : Reading} (h : s.machine.lexicon.Plain) :
    (ending (ReadAction.read.run s)).machine.lexicon.Plain := by
  obtain ⟨-, ss, hscan, hlexicon⟩ := Learns.read s.cursor s.machine
  have hplain := h.internAll hscan.isLine
  rwa [← hlexicon] at hplain

end Plain

end Lexicon

/-! ### Prints -/

namespace Render

variable {a : Arena}

/-- A way of printing that puts no line break in front of a text. -/
def Breakless (print : List Char → Except Stop (List Char)) : Prop :=
  ∀ after cs, '\n' ∉ after → print after = .ok cs → '\n' ∉ cs

theorem tail_breakless {element : Value → List Char → Except Stop (List Char)}
    (helement : ∀ v, Breakless (element v)) (count : Nat) (v : Value) :
    Breakless (tail a element count v) := by
  have himproper : ∀ {after cs} (v : Value), '\n' ∉ after →
      (do return ' ' :: '.' :: ' ' :: (← element v (')' :: after))) = Except.ok cs → '\n' ∉ cs := by
    intro after cs v hafter h
    obtain ⟨inner, hinner, h⟩ := exists_of_bind_eq_ok h
    cases h
    have hinner := helement v _ _ (by simpa using hafter) hinner
    simpa using hinner
  induction count generalizing v with
  | zero =>
    intro after cs hafter h
    cases v with
    | nil =>
      cases h
      simpa using hafter
    | pair id =>
      cases h
      simpa [ellipsis] using hafter
    | atom _ | builtin _ => exact himproper _ hafter h
  | succ count ih =>
    intro after cs hafter h
    cases v with
    | nil =>
      cases h
      simpa using hafter
    | atom _ | builtin _ => exact himproper _ hafter h
    | pair id =>
      obtain ⟨rest, -, h⟩ := exists_of_bind_eq_ok h
      obtain ⟨behind, hbehind, h⟩ := exists_of_bind_eq_ok h
      obtain ⟨x, -, h⟩ := exists_of_bind_eq_ok h
      obtain ⟨inner, hinner, h⟩ := exists_of_bind_eq_ok h
      cases h
      have hinner := helement x _ _ (ih rest _ _ hafter hbehind) hinner
      simpa using hinner

theorem value_breakless (hl : l.Plain) (depth : Nat) (v : Value) : Breakless (value a l depth v) := by
  induction depth generalizing v with
  | zero =>
    intro after cs hafter h
    cases h
    simpa [ellipsis] using hafter
  | succ depth ih =>
    intro after cs hafter h
    cases v with
    | nil =>
      cases h
      simpa [Lexicon.nilName] using hafter
    | atom i =>
      cases h
      exact fun hmem => (List.mem_append.mp hmem).elim (hl.name i) hafter
    | builtin b =>
      cases h
      have hname : IsLine b.name := by cases b <;> decide
      intro hmem
      rw [List.mem_append, List.mem_append, List.mem_cons] at hmem
      rcases hmem with (hmem | hmem) | hmem | hmem
      · exact absurd hmem (by decide)
      · exact hname hmem
      · exact absurd hmem (by decide)
      · exact hafter hmem
    | pair id =>
      obtain ⟨x, -, h⟩ := exists_of_bind_eq_ok h
      obtain ⟨y, -, h⟩ := exists_of_bind_eq_ok h
      obtain ⟨o, -, h⟩ := exists_of_bind_eq_ok h
      cases o with
      | some z =>
        obtain ⟨inner, hinner, h⟩ := exists_of_bind_eq_ok h
        cases h
        simpa using ih z _ _ hafter hinner
      | none =>
        obtain ⟨behind, hbehind, h⟩ := exists_of_bind_eq_ok h
        obtain ⟨inner, hinner, h⟩ := exists_of_bind_eq_ok h
        cases h
        have hbehind := tail_breakless ih _ y _ _ hafter hbehind
        simpa using ih x _ _ hbehind hinner

end Render

/-- The print of a value fits on a line. -/
theorem Lexicon.Plain.render (hl : l.Plain) {a : Arena} {v : Value} {text : String}
    (h : Render.render a l v = .ok text) : IsLine text := by
  obtain ⟨cs, hcs, h⟩ := exists_of_bind_eq_ok h
  cases h
  rw [IsLine, String.toList_ofList]
  exact Render.value_breakless hl _ v _ _ List.not_mem_nil hcs

/-! ### Messages -/

theorem IllFormed.isLine_message (what : IllFormed) : IsLine what.message := by
  cases what with
  | operands f =>
    cases f with
    | special b => cases b <;> decide
    | application => decide
  | slotOf b => cases b <;> decide
  | scope | closure | formals | arity | noClause | expression => decide

theorem Failure.Arises.isLine (hl : l.Plain) {why : Failure} (h : why.Arises l) : IsLine why.message := by
  cases h with
  | unbound i => exact .append (.append (by decide) (hl.name i)) (by decide)
  | illFormed what => exact .append (by decide) what.isLine_message
  | notCallable h => exact .append (by decide) (hl.render h)
  | outOfMemory => decide

theorem SyntaxError.isLine_blocked (o : Obstacle) (offset : Nat) :
    IsLine (Failure.unreadable (.blocked o offset)).message := by
  have ho : IsLine o.message := by cases o <;> decide
  exact .append (by decide) (.append (.append ho (by decide)) (isLine_toString offset))

end ArenaLisp
