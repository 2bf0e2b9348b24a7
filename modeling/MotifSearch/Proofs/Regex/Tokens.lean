import MotifSearch.Regex.Token

/-!
# The tokens of texts that follow each other

A text is split into tokens from left to right, and a token is complete where the next one begins.
The one exception is a loop mark, which takes a question mark after it as part of the token.

## Main results

* `scan_singleton` — a plain character is a token by itself
* `scan_append` — the tokens of a text, and then those of what follows it
-/

namespace MotifSearch.Token

private theorem exists_of_cons_map {token : Token} {result : Except SyntaxError (List Token)}
    {tokens : List Token} (h : (token :: ·) <$> result = .ok tokens) :
    ∃ more, result = .ok more ∧ tokens = token :: more := by
  cases result with
  | error e => cases h
  | ok more => exact ⟨more, rfl, (Except.ok.inj h).symm⟩

private theorem cons_map_append_map (token : Token) (more : List Token)
    (result : Except SyntaxError (List Token)) :
    (token :: ·) <$> (more ++ ·) <$> result = (token :: more ++ ·) <$> result := by
  cases result <;> rfl

/-- A character that is a token by itself. -/
private theorem scan_of_ofChar {c : Char} {token : Token} {rest : List Char} (hslash : c ≠ '\\')
    (hclass : c ≠ '[') (hgroup : c ≠ '(') (hmark : loopMark? c = none)
    (htoken : ofChar c = .ok token) :
    scan none (c :: rest) = (token :: ·) <$> scan none rest := by
  by_cases hrest : ∃ more, rest = '?' :: more
  · obtain ⟨more, rfl⟩ := hrest
    rw [scan, hmark, htoken]
    · rfl
    all_goals simp [hslash, hclass, hgroup]
  · rw [scan, hmark, htoken]
    · rfl
    all_goals simp_all

/-- A character that has no meaning of its own in the syntax stands for itself. -/
theorem scan_singleton {c : Char} (h : isMeta c = false) :
    scan none [c] = .ok [.atom (.chars (.single c))] := by
  have hmeta : ∀ d, isMeta d = true → c ≠ d := by
    rintro d hd rfl
    rw [h] at hd
    cases hd
  have hmark : loopMark? c = none := by
    unfold loopMark?
    split <;> first | rfl | cases h
  have htoken : ofChar c = .ok (.atom (.chars (.single c))) := by
    unfold ofChar
    split <;> first | rfl | cases h
  rw [scan_of_ofChar (hmeta _ rfl) (hmeta _ rfl) (hmeta _ rfl) hmark htoken]
  rfl

/-- A loop mark that is not made lazy. -/
private theorem scan_of_loopMark {c : Char} {times : Repeat} {rest : List Char}
    (htimes : loopMark? c = some times) (hrest : ∀ more, rest = '?' :: more → False) :
    scan none (c :: rest) = (loop times true :: ·) <$> scan none rest := by
  rw [scan, htimes]
  all_goals
    intros
    simp_all [loopMark?]

/-- No question mark is in front of two texts in a row if there is none in front of either. -/
private theorem not_question_append {rest after : List Char} (hafter : after.head? ≠ some '?')
    (hrest : ∀ more, rest = '?' :: more → False) :
    ∀ more, rest ++ after = '?' :: more → False := by
  intro more hmore
  cases rest with
  | nil => exact hafter (by rw [← List.nil_append after, hmore, List.head?_cons])
  | cons d rest =>
    obtain ⟨rfl, -⟩ := List.cons.inj hmore
    exact hrest rest rfl

/-- A character that is a token by itself stays one whatever follows. -/
private theorem scan_append_of_ofChar {c : Char} {rest after : List Char} {tokens : List Token}
    (hslash : c ≠ '\\') (hclass : c ≠ '[') (hgroup : c ≠ '(') (hmark : loopMark? c = none)
    (h : (do let token ← ofChar c; (token :: ·) <$> scan none rest) = .ok tokens)
    (ih : ∀ {more}, scan none rest = .ok more →
      scan none (rest ++ after) = (more ++ ·) <$> scan none after) :
    scan none (c :: rest ++ after) = (tokens ++ ·) <$> scan none after := by
  cases htoken : ofChar c with
  | error e => simp [htoken, bind, Except.bind] at h
  | ok token =>
    rw [htoken] at h
    obtain ⟨more, hmore, rfl⟩ := exists_of_cons_map h
    rw [List.cons_append, scan_of_ofChar hslash hclass hgroup hmark htoken, ih hmore,
      cons_map_append_map]

/-- Unless a question mark follows, the tokens of a text are the same whatever follows. -/
theorem scan_append {cls : Option OpenClass} {text after : List Char} {tokens : List Token}
    (h : scan cls text = .ok tokens) (hafter : after.head? ≠ some '?') :
    scan cls (text ++ after) = (tokens ++ ·) <$> scan none after := by
  -- The cases are those of `scan`, in their order. Where it fails there is nothing to show.
  fun_induction scan cls text generalizing tokens with
  | case1 =>
    obtain rfl := Except.ok.inj h
    exact (LawfulFunctor.id_map _).symm
  | case2 | case3 | case5 | case9 | case15 | case17 => cases h
  -- A character after a backslash.
  | case4 c rest d hd ih =>
    obtain ⟨more, hmore, rfl⟩ := exists_of_cons_map h
    simp only [List.cons_append, scan, hd, ih hmore, cons_map_append_map]
  -- A bracket that opens a class, with a caret and without one.
  | case6 rest ih => exact ih h
  | case7 rest hrest ih =>
    cases rest with
    | nil => cases h
    | cons d rest =>
      rw [List.cons_append, List.cons_append, scan]
      · exact ih h
      · rintro more heq
        obtain ⟨rfl, -⟩ := List.cons.inj heq
        exact hrest rest rfl
  -- A bracket that opens a group, first one that does not capture.
  | case8 rest ih =>
    obtain ⟨more, hmore, rfl⟩ := exists_of_cons_map h
    simp only [List.cons_append, scan, ih hmore, cons_map_append_map]
  | case10 rest _ hquestion ih =>
    obtain ⟨more, hmore, rfl⟩ := exists_of_cons_map h
    rw [List.cons_append, scan, ih hmore, cons_map_append_map]
    · intro more
      exact not_question_append hafter hquestion _
    · exact not_question_append hafter hquestion
  -- A loop mark and a question mark, which belong together, or another character before one.
  | case11 c rest _ _ _ _ times htimes ih =>
    obtain ⟨more, hmore, rfl⟩ := exists_of_cons_map h
    rw [List.cons_append, List.cons_append, scan, htimes]
    · simp only [ih hmore, cons_map_append_map]
    all_goals simp_all
  | case12 c rest hslash hclass _ hgroup hmark ih =>
    exact scan_append_of_ofChar hslash hclass hgroup hmark h ih
  -- The same without the question mark, of which there is none in what follows either.
  | case13 c rest h1 h2 h3 h4 h5 h6 h7 hquestion times htimes ih =>
    obtain ⟨more, hmore, rfl⟩ := exists_of_cons_map h
    rw [List.cons_append, scan_of_loopMark htimes (not_question_append hafter hquestion), ih hmore,
      cons_map_append_map]
  | case14 c rest h1 h2 h3 h4 h5 h6 h7 hquestion hmark ih =>
    have hslash : c ≠ '\\' := by
      rintro rfl
      cases rest with
      | nil => exact h1 rfl rfl
      | cons d rest => exact h2 d rest rfl rfl
    exact scan_append_of_ofChar hslash h4 h7 hmark h ih
  -- Inside a class: a character after a backslash, the closing bracket, any other character.
  | case16 cls c rest d hd ih =>
    cases hpush : cls.push d with
    | error e => simp [hpush, bind, Except.bind] at h
    | ok next =>
      rw [hpush] at h
      simp only [List.cons_append, scan, hd, hpush]
      exact ih next h
  | case18 cls c rest h1 h2 hclose ih =>
    obtain ⟨more, hmore, rfl⟩ := exists_of_cons_map h
    obtain ⟨rfl, hcan⟩ := hclose
    simp [scan, hcan, ih hmore]
  | case19 cls c rest h1 h2 hclose ih =>
    cases hstep : cls.step c rest with
    | error e => simp [hstep, bind, Except.bind] at h
    | ok next =>
      rw [hstep] at h
      replace h : scan (some next) rest = .ok tokens := h
      cases rest with
      | nil => cases h
      | cons d rest =>
        have hslash : c ≠ '\\' := fun heq => h2 d rest heq rfl
        have hstep' : cls.step c (d :: rest ++ after) = .ok next := hstep
        rw [List.cons_append, scan, if_neg hclose, hstep']
        · exact ih next h
        all_goals simp [hslash]

end MotifSearch.Token
