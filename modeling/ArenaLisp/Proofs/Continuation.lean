import ArenaLisp.Proofs.Grammar

/-!
# How a text can be continued

The grammar leaves no choice: a text begins with at most one expression and then has no obstacle
(`Derives.unique`, `Derives.not_blocks`).  Whether a text begins with an expression does not depend on
what stands behind it, but for the end of a name (`Derives.exists_taken`).  So what stands before an
obstacle can be continued to an expression, whatever was open there (`Blocks.exists_completion`), and what
stands before it and the character at the obstacle cannot (`Blocks.persists`).
-/

namespace ArenaLisp.Grammar

variable {p : Part} {cs r d rest rest' left taken : List Char} {x : Char} {e e' t : SExpr} {o : Obstacle}
  {n : Nat}

/-! ### There is only one way to read a text -/

/-- The end of a name is where the next delimiter stands. -/
theorem IsName.append_inj {w w' : List Char} (hw : IsName w) (hw' : IsName w') (hrest : AtDelimiter rest)
    (hrest' : AtDelimiter rest') (h : w ++ rest = w' ++ rest') : w = w' ∧ rest = rest' := by
  obtain ⟨hname, hdrop⟩ := hw.takeWhile hrest
  obtain ⟨hname', hdrop'⟩ := hw'.takeWhile hrest'
  rw [h] at hname hdrop
  exact ⟨hname.symm.trans hname', hdrop.symm.trans hdrop'⟩

/-- A name begins neither a quoted expression nor a list. -/
theorem IsName.append_ne_cons {w : List Char} (hw : IsName w)
    (hx : x = '(' ∨ x = ')' ∨ x = '.' ∨ x = '\x27') : w ++ rest ≠ x :: r := by
  obtain ⟨y, w', rfl, -, hopen, hclose, hdot, hquote⟩ := hw.exists_cons
  intro h
  obtain rfl : y = x := (List.cons.inj h).1
  rcases hx with rfl | rfl | rfl | rfl
  · exact hopen rfl
  · exact hclose rfl
  · exact hdot rfl
  · exact hquote rfl

/-- An expression begins with something, -/
theorem Derives.dropWhile_ne_nil (h : Derives .expr cs e rest) : cs.dropWhile isBlank ≠ [] := by
  obtain ⟨x, r, hx, -⟩ := h.exists_cons
  simp [hx]

/-- but not with a closing parenthesis, -/
theorem Derives.dropWhile_ne_close (h : Derives .expr cs e rest) : cs.dropWhile isBlank ≠ ')' :: r := by
  obtain ⟨x, r', hx, hclose, -⟩ := h.exists_cons
  simp [hx, hclose]

/-- and, like the rest of a list, not with a dot. -/
theorem Derives.dropWhile_ne_dot (h : Derives p cs e rest) : cs.dropWhile isBlank ≠ '.' :: r := by
  intro hdot
  exact h.head_ne_dot (by rw [hdot]; rfl)

/-- A text begins with at most one part of a kind. -/
theorem Derives.unique (h : Derives p cs e rest) (h' : Derives p cs e' rest') :
    e = e' ∧ rest = rest' := by
  induction h generalizing e' rest' with
  | name h hw hrest =>
    cases h' with
    | name h₂ hw₂ hrest₂ =>
      obtain ⟨rfl, rfl⟩ := hw.append_inj hw₂ hrest hrest₂ (h.symm.trans h₂)
      exact ⟨rfl, rfl⟩
    | quote h₂ _ | list h₂ _ => exact absurd (h.symm.trans h₂) (hw.append_ne_cons (by decide))
  | quote h _ ih =>
    cases h' with
    | name h₂ hw₂ _ => exact absurd (h₂.symm.trans h) (hw₂.append_ne_cons (by decide))
    | quote h₂ he₂ =>
      obtain rfl := (List.cons.inj (h.symm.trans h₂)).2
      obtain ⟨rfl, rfl⟩ := ih he₂
      exact ⟨rfl, rfl⟩
    | list h₂ _ => cases h.symm.trans h₂
  | list h _ ih =>
    cases h' with
    | name h₂ hw₂ _ => exact absurd (h₂.symm.trans h) (hw₂.append_ne_cons (by decide))
    | quote h₂ _ => cases h.symm.trans h₂
    | list h₂ he₂ =>
      obtain rfl := (List.cons.inj (h.symm.trans h₂)).2
      exact ih he₂
  | close h =>
    cases h' with
    | close h₂ => exact ⟨rfl, (List.cons.inj (h.symm.trans h₂)).2⟩
    | more he _ | dotted he _ _ _ => exact absurd h he.dropWhile_ne_close
  | more he ht ihe iht =>
    cases h' with
    | close h₂ => exact absurd h₂ he.dropWhile_ne_close
    | more he₂ ht₂ =>
      obtain ⟨rfl, rfl⟩ := ihe he₂
      obtain ⟨rfl, rfl⟩ := iht ht₂
      exact ⟨rfl, rfl⟩
    | dotted he₂ hdot₂ _ _ =>
      obtain ⟨rfl, rfl⟩ := ihe he₂
      exact absurd hdot₂ ht.dropWhile_ne_dot
  | dotted he hdot ht hclose ihe iht =>
    cases h' with
    | close h₂ => exact absurd h₂ he.dropWhile_ne_close
    | more he₂ ht₂ =>
      obtain ⟨rfl, rfl⟩ := ihe he₂
      exact absurd hdot ht₂.dropWhile_ne_dot
    | dotted he₂ hdot₂ ht₂ hclose₂ =>
      obtain ⟨rfl, rfl⟩ := ihe he₂
      obtain rfl := (List.cons.inj (hdot.symm.trans hdot₂)).2
      obtain ⟨rfl, rfl⟩ := iht ht₂
      exact ⟨rfl, (List.cons.inj (hclose.symm.trans hclose₂)).2⟩

/-- A text that begins with a part has no obstacle in it. -/
theorem Derives.not_blocks (h : Derives p cs e rest) : ¬ Blocks p cs o left n := by
  intro hb
  induction h generalizing o left n with
  | name h hw _ =>
    cases hb with
    | endOfText h₂ => exact hw.1 (List.append_eq_nil_iff.mp (h.symm.trans h₂)).1
    | strayClose h₂ | strayDot h₂ | quote h₂ _ | list h₂ _ =>
      exact hw.append_ne_cons (by decide) (h.symm.trans h₂)
  | quote h _ ih =>
    cases hb with
    | quote h₂ hb =>
      obtain rfl := (List.cons.inj (h.symm.trans h₂)).2
      exact ih hb
    | endOfText h₂ | strayClose h₂ | strayDot h₂ | list h₂ _ => cases h.symm.trans h₂
  | list h _ ih =>
    cases hb with
    | list h₂ hb =>
      obtain rfl := (List.cons.inj (h.symm.trans h₂)).2
      exact ih hb
    | endOfText h₂ | strayClose h₂ | strayDot h₂ | quote h₂ _ => cases h.symm.trans h₂
  | close h =>
    cases hb with
    | openList h₂ => cases h.symm.trans h₂
    | head h₂ hclose _ => exact hclose (List.cons.inj (h₂.symm.trans h)).1
    | tail he _ _ | afterDot he _ _ | openTail he _ _ _ => exact he.dropWhile_ne_close h
  | more he ht ihe iht =>
    cases hb with
    | openList h₂ => exact he.dropWhile_ne_nil h₂
    | head _ _ hb => exact ihe hb
    | tail he₂ _ hb =>
      obtain ⟨rfl, rfl⟩ := he.unique he₂
      exact iht hb
    | afterDot he₂ hdot₂ _ | openTail he₂ hdot₂ _ _ =>
      obtain ⟨rfl, rfl⟩ := he.unique he₂
      exact ht.dropWhile_ne_dot hdot₂
  | dotted he hdot ht hclose ihe iht =>
    cases hb with
    | openList h₂ => exact he.dropWhile_ne_nil h₂
    | head _ _ hb => exact ihe hb
    | tail he₂ hdot₂ _ =>
      obtain ⟨rfl, rfl⟩ := he.unique he₂
      exact hdot₂ (by rw [hdot]; rfl)
    | afterDot he₂ hdot₂ hb =>
      obtain ⟨rfl, rfl⟩ := he.unique he₂
      obtain rfl := (List.cons.inj (hdot.symm.trans hdot₂)).2
      exact iht hb
    | openTail he₂ hdot₂ ht₂ hclose₂ =>
      obtain ⟨rfl, rfl⟩ := he.unique he₂
      obtain rfl := (List.cons.inj (hdot.symm.trans hdot₂)).2
      obtain ⟨rfl, rfl⟩ := ht.unique ht₂
      exact hclose₂ (by rw [hclose]; rfl)

/-! ### What stands behind a part -/

/-- The blanks at the beginning of a text, in front of any other text. -/
theorem exists_blanks (h : cs.dropWhile isBlank = left) :
    ∃ b, cs = b ++ left ∧ ∀ more, (b ++ more).dropWhile isBlank = more.dropWhile isBlank := by
  refine ⟨cs.takeWhile isBlank, ?_, fun more => ?_⟩
  · rw [← h, List.takeWhile_append_dropWhile]
  · exact List.dropWhile_append_of_pos fun x hx => List.mem_takeWhile_imp hx

theorem dropWhile_isBlank_cons (h : isBlank x = false) : (x :: r).dropWhile isBlank = x :: r := by
  rw [List.dropWhile_cons_of_neg (by simp [h])]

/-- The same, in front of a character that is no blank. -/
theorem exists_blanks_cons (h : cs.dropWhile isBlank = x :: r) :
    ∃ b, cs = b ++ x :: r ∧ ∀ more, (b ++ x :: more).dropWhile isBlank = x :: more := by
  obtain ⟨b, hcs, hb⟩ := exists_blanks h
  refine ⟨b, hcs, fun more => ?_⟩
  rw [hb, dropWhile_isBlank_cons (isBlank_of_dropWhile h)]

/-- Whether a name can end in front of a text only depends on its first character. -/
theorem AtDelimiter.append (h : AtDelimiter rest → AtDelimiter rest') :
    AtDelimiter (taken ++ rest) → AtDelimiter (taken ++ rest') := by
  cases taken with
  | nil => exact h
  | cons x taken => exact fun hx => hx

theorem atDelimiter_nil : AtDelimiter [] := nofun

/-- What a part takes of a text, it takes of it whatever stands behind, if a name can end there. -/
theorem Derives.exists_taken (h : Derives p cs e rest) :
    ∃ taken, cs = taken ++ rest ∧
      ∀ rest', (AtDelimiter rest → AtDelimiter rest') → Derives p (taken ++ rest') e rest' := by
  induction h with
  | @name cs w rest h hw hrest =>
    obtain ⟨b, rfl, hb⟩ := exists_blanks h
    refine ⟨b ++ w, (List.append_assoc ..).symm, fun rest' hrest' => ?_⟩
    refine .name ?_ hw (hrest' hrest)
    rw [List.append_assoc, hb, hw.dropWhile_append]
  | quote h _ ih =>
    obtain ⟨b, rfl, hb⟩ := exists_blanks_cons h
    obtain ⟨taken, rfl, htaken⟩ := ih
    refine ⟨b ++ '\x27' :: taken, by simp, fun rest' hrest' => ?_⟩
    rw [List.append_assoc, List.cons_append]
    exact .quote (hb _) (htaken rest' hrest')
  | list h _ ih =>
    obtain ⟨b, rfl, hb⟩ := exists_blanks_cons h
    obtain ⟨taken, rfl, htaken⟩ := ih
    refine ⟨b ++ '(' :: taken, by simp, fun rest' hrest' => ?_⟩
    rw [List.append_assoc, List.cons_append]
    exact .list (hb _) (htaken rest' hrest')
  | close h =>
    obtain ⟨b, rfl, hb⟩ := exists_blanks_cons h
    refine ⟨b ++ [')'], by simp, fun rest' _ => ?_⟩
    rw [List.append_assoc]
    exact .close (hb rest')
  | more _ _ ihe iht =>
    obtain ⟨taken, rfl, htaken⟩ := ihe
    obtain ⟨taken', rfl, htaken'⟩ := iht
    refine ⟨taken ++ taken', (List.append_assoc ..).symm, fun rest' hrest' => ?_⟩
    rw [List.append_assoc]
    exact .more (htaken _ (.append hrest')) (htaken' rest' hrest')
  | dotted _ hdot _ hclose ihe iht =>
    obtain ⟨taken, rfl, htaken⟩ := ihe
    obtain ⟨b, rfl, hb⟩ := exists_blanks_cons hdot
    obtain ⟨taken', rfl, htaken'⟩ := iht
    obtain ⟨b', rfl, hb'⟩ := exists_blanks_cons hclose
    refine ⟨taken ++ (b ++ '.' :: (taken' ++ (b' ++ [')']))), by simp, fun rest' _ => ?_⟩
    have ht := htaken' (b' ++ ')' :: rest') (.append fun h => h)
    have he := htaken (b ++ '.' :: (taken' ++ (b' ++ ')' :: rest'))) (.append fun h => h)
    have hcs : taken ++ (b ++ '.' :: (taken' ++ (b' ++ [')']))) ++ rest' =
        taken ++ (b ++ '.' :: (taken' ++ (b' ++ ')' :: rest'))) := by simp
    rw [hcs]
    exact .dotted he (hb _) ht (hb' rest')

/-- What a part takes to the end of a text, it takes in front of anything before which a name can end. -/
theorem Derives.extend (h : Derives p cs e []) (hrest : AtDelimiter rest) :
    Derives p (cs ++ rest) e rest := by
  obtain ⟨taken, rfl, htaken⟩ := h.exists_taken
  rw [List.append_nil]
  exact htaken rest fun _ => hrest

/-! ### What stands before an obstacle -/

/-- The closing parenthesis, before which a name can end. -/
theorem atDelimiter_close : AtDelimiter [')'] := atDelimiter_cons (by decide)

theorem AtDelimiter.append_close {more : List Char} (h : AtDelimiter more) :
    AtDelimiter (more ++ [')']) := by
  cases more with
  | nil => exact atDelimiter_close
  | cons x more => exact h

/-- Blanks can be completed to an expression. -/
theorem exists_completion_of_blanks (h : cs.dropWhile isBlank = left) :
    ∃ taken more, cs = taken ++ left ∧ AtDelimiter more ∧ ∃ e, Derives .expr (taken ++ more) e [] := by
  obtain ⟨b, hcs, hb⟩ := exists_blanks h
  refine ⟨b, ['(', ')'], hcs, atDelimiter_cons (by decide), .nil, ?_⟩
  exact .list (hb _) (.close rfl)

/-- What stands before an obstacle can be completed: by an expression where one is missing, and by the
parentheses of the lists that are open. -/
theorem Blocks.exists_completion (h : Blocks p cs o left n) :
    ∃ taken more, cs = taken ++ left ∧ AtDelimiter more ∧ ∃ e, Derives p (taken ++ more) e [] := by
  induction h with
  | endOfText h | strayClose h | strayDot h => exact exists_completion_of_blanks h
  | quote h _ ih =>
    obtain ⟨b, rfl, hb⟩ := exists_blanks_cons h
    obtain ⟨taken, more, rfl, hmore, e, he⟩ := ih
    refine ⟨b ++ '\x27' :: taken, more, by simp, hmore, ?_⟩
    rw [List.append_assoc, List.cons_append]
    exact ⟨_, .quote (hb _) he⟩
  | list h _ ih =>
    obtain ⟨b, rfl, hb⟩ := exists_blanks_cons h
    obtain ⟨taken, more, rfl, hmore, e, he⟩ := ih
    refine ⟨b ++ '(' :: taken, more, by simp, hmore, ?_⟩
    rw [List.append_assoc, List.cons_append]
    exact ⟨_, .list (hb _) he⟩
  | openList h =>
    obtain ⟨b, rfl, hb⟩ := exists_blanks h
    exact ⟨b, [')'], rfl, atDelimiter_close, _, .close (hb _)⟩
  | head _ _ _ ih =>
    obtain ⟨taken, more, rfl, hmore, e, he⟩ := ih
    refine ⟨taken, more ++ [')'], rfl, hmore.append_close, ?_⟩
    rw [← List.append_assoc]
    exact ⟨_, .more (he.extend atDelimiter_close) (.close rfl)⟩
  | tail he _ _ ih =>
    obtain ⟨first, rfl, hfirst⟩ := he.exists_taken
    obtain ⟨taken, more, rfl, hmore, t, ht⟩ := ih
    refine ⟨first ++ taken, more, by simp, hmore, ?_⟩
    rw [List.append_assoc]
    exact ⟨_, .more (hfirst _ (.append fun _ => hmore)) ht⟩
  | afterDot he hdot _ ih =>
    obtain ⟨first, rfl, hfirst⟩ := he.exists_taken
    obtain ⟨b, rfl, hb⟩ := exists_blanks_cons hdot
    obtain ⟨taken, more, rfl, hmore, t, ht⟩ := ih
    have ht : Derives .expr (taken ++ (more ++ [')'])) t [')'] := by
      rw [← List.append_assoc]
      exact ht.extend atDelimiter_close
    refine ⟨first ++ (b ++ '.' :: taken), more ++ [')'], by simp, hmore.append_close, ?_⟩
    rw [List.append_assoc, List.append_assoc, List.cons_append]
    exact ⟨_, .dotted (hfirst _ (.append fun h => h)) (hb _) ht rfl⟩
  | @openTail _ _ _ d _ t he hdot ht _ =>
    generalize hleft : d.dropWhile isBlank = left
    obtain ⟨first, rfl, hfirst⟩ := he.exists_taken
    obtain ⟨b, rfl, hb⟩ := exists_blanks_cons hdot
    obtain ⟨last, rfl, hlast⟩ := ht.exists_taken
    obtain ⟨b', rfl, hb'⟩ := exists_blanks hleft
    have ht : Derives .expr (last ++ (b' ++ [')'])) t (b' ++ [')']) :=
      hlast _ (.append fun _ => atDelimiter_close)
    refine ⟨first ++ (b ++ '.' :: (last ++ b')), [')'], by simp, atDelimiter_close, ?_⟩
    rw [List.append_assoc, List.append_assoc, List.cons_append, List.append_assoc]
    exact ⟨_, .dotted (hfirst _ (.append fun h => h)) (hb _) ht (hb' _)⟩

/-- What comes first behind blanks does not depend on what stands behind it. -/
theorem head?_dropWhile_append (hx : isBlank x = false) (taken r r' : List Char) :
    ((taken ++ x :: r).dropWhile isBlank).head? = ((taken ++ x :: r').dropWhile isBlank).head? := by
  induction taken with
  | nil =>
    rw [List.nil_append, List.nil_append, dropWhile_isBlank_cons hx, dropWhile_isBlank_cons hx]
    rfl
  | cons y taken ih =>
    cases hy : isBlank y with
    | true => simpa [hy] using ih
    | false => simp [hy]

/-- The character at an obstacle is no blank, and it stays an obstacle whatever stands behind it. -/
theorem Blocks.persists (h : Blocks p cs o left n) (hleft : left = x :: r) :
    isBlank x = false ∧ ∃ taken, cs = taken ++ x :: r ∧
      ∀ more, Blocks p (taken ++ x :: more) o (x :: more) n := by
  induction h with
  | endOfText _ | openList _ => cases hleft
  | strayClose h =>
    cases hleft
    obtain ⟨b, rfl, hb⟩ := exists_blanks_cons h
    exact ⟨rfl, b, rfl, fun more => .strayClose (hb more)⟩
  | strayDot h =>
    cases hleft
    obtain ⟨b, rfl, hb⟩ := exists_blanks_cons h
    exact ⟨rfl, b, rfl, fun more => .strayDot (hb more)⟩
  | quote h _ ih =>
    obtain ⟨b, rfl, hb⟩ := exists_blanks_cons h
    obtain ⟨hx, taken, rfl, htaken⟩ := ih hleft
    refine ⟨hx, b ++ '\x27' :: taken, by simp, fun more => ?_⟩
    rw [List.append_assoc, List.cons_append]
    exact .quote (hb _) (htaken more)
  | list h _ ih =>
    obtain ⟨b, rfl, hb⟩ := exists_blanks_cons h
    obtain ⟨hx, taken, rfl, htaken⟩ := ih hleft
    refine ⟨hx, b ++ '(' :: taken, by simp, fun more => ?_⟩
    rw [List.append_assoc, List.cons_append]
    exact .list (hb _) (htaken more)
  | head h hclose _ ih =>
    obtain ⟨hx, taken, rfl, htaken⟩ := ih hleft
    refine ⟨hx, taken, rfl, fun more => ?_⟩
    have hhead := head?_dropWhile_append hx taken r more
    rw [h] at hhead
    obtain ⟨r', hr'⟩ := List.head?_eq_some_iff.mp hhead.symm
    exact .head hr' hclose (htaken more)
  | tail he hdot _ ih =>
    obtain ⟨first, rfl, hfirst⟩ := he.exists_taken
    obtain ⟨hx, taken, rfl, htaken⟩ := ih hleft
    refine ⟨hx, first ++ taken, by simp, fun more => ?_⟩
    rw [List.append_assoc]
    rw [head?_dropWhile_append hx taken r more] at hdot
    exact .tail (hfirst _ (.append fun h => h)) hdot (htaken more)
  | afterDot he hdot _ ih =>
    obtain ⟨first, rfl, hfirst⟩ := he.exists_taken
    obtain ⟨b, rfl, hb⟩ := exists_blanks_cons hdot
    obtain ⟨hx, taken, rfl, htaken⟩ := ih hleft
    refine ⟨hx, first ++ (b ++ '.' :: taken), by simp, fun more => ?_⟩
    rw [List.append_assoc, List.append_assoc, List.cons_append]
    exact .afterDot (hfirst _ (.append fun h => h)) (hb _) (htaken more)
  | openTail he hdot ht hclose =>
    rw [hleft] at hclose
    obtain ⟨first, rfl, hfirst⟩ := he.exists_taken
    obtain ⟨b, rfl, hb⟩ := exists_blanks_cons hdot
    obtain ⟨last, rfl, hlast⟩ := ht.exists_taken
    obtain ⟨b', rfl, hb'⟩ := exists_blanks_cons hleft
    refine ⟨isBlank_of_dropWhile hleft, first ++ (b ++ '.' :: (last ++ b')), by simp, fun more => ?_⟩
    have ht := hlast (b' ++ x :: more) (.append fun h => h)
    have hblocks := Blocks.openTail (hfirst (b ++ '.' :: (last ++ (b' ++ x :: more))) (.append fun h => h))
      (hb _) ht (by rw [hb']; exact hclose)
    rw [hb'] at hblocks
    rw [List.append_assoc, List.append_assoc, List.cons_append, List.append_assoc]
    exact hblocks

/-! ### Texts that are to be one expression -/

/-- Whether a text is an expression, with nothing but blanks around it. -/
def Whole (cs : List Char) : Prop := ∃ e rest, Derives .expr cs e rest ∧ rest.dropWhile isBlank = []

/-- Where a text cannot be read on that is to be one expression: at an obstacle in it, or at what stands
behind it. -/
inductive Impasse (cs : List Char) : Obstacle → List Char → Prop
  | blocked {o : Obstacle} {left : List Char} {n : Nat} (h : Blocks .expr cs o left n) : Impasse cs o left
  | surplus {x : Char} {r rest : List Char} {e : SExpr} (h : Derives .expr cs e rest)
    (hrest : rest.dropWhile isBlank = x :: r) : Impasse cs .surplus (x :: r)

namespace Impasse

/-- What stands before the place can be continued to an expression. -/
theorem exists_completion (h : Impasse cs o left) :
    ∃ taken more, cs = taken ++ left ∧ Whole (taken ++ more) := by
  cases h with
  | blocked h =>
    obtain ⟨taken, more, hcs, -, e, he⟩ := h.exists_completion
    exact ⟨taken, more, hcs, e, [], he, rfl⟩
  | surplus h hrest =>
    obtain ⟨taken, rfl, htaken⟩ := h.exists_taken
    obtain ⟨b, rfl, hb⟩ := exists_blanks hrest
    refine ⟨taken ++ b, [], by simp, ?_⟩
    rw [List.append_assoc]
    exact ⟨_, _, htaken (b ++ []) (.append fun _ => atDelimiter_nil), hb []⟩

/-- What stands before the place and the character there cannot. -/
theorem not_whole (h : Impasse cs o (x :: r)) :
    ∃ taken, cs = taken ++ x :: r ∧ ∀ more, ¬ Whole (taken ++ x :: more) := by
  cases h with
  | blocked h =>
    obtain ⟨-, taken, hcs, htaken⟩ := h.persists rfl
    refine ⟨taken, hcs, fun more hwhole => ?_⟩
    obtain ⟨e, rest, he, -⟩ := hwhole
    exact he.not_blocks (htaken more)
  | surplus h hrest =>
    obtain ⟨taken, rfl, htaken⟩ := h.exists_taken
    obtain ⟨b, rfl, hb⟩ := exists_blanks_cons hrest
    refine ⟨taken ++ b, by simp, fun more hwhole => ?_⟩
    obtain ⟨e, rest, he, hend⟩ := hwhole
    rw [List.append_assoc] at he
    obtain ⟨-, rfl⟩ := he.unique (htaken (b ++ x :: more) (.append fun h => h))
    rw [hb more] at hend
    cases hend

end Impasse

end ArenaLisp.Grammar
