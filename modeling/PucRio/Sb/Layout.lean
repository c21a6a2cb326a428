import PucRio.Sb.Code

/-! The texts of an SB program: its lines with blanks, empty lines and comments between them. What
`geracod` reads from such a text are these lines. -/
namespace PucRio.Sb

/-- Blanks within a line. -/
def Blanks (ws : List Char) : Prop := ∀ c ∈ ws, c = ' ' ∨ c = '\t'

/-- The characters are a text of these lines, up to `ret`; the number counts the line ends. -/
inductive Layout : ℕ → List Char → List Linha → Prop
  | ret {cs : List Char} : Layout 0 ('r' :: 'e' :: 't' :: cs) []
  | blank {n : ℕ} {b : Char} {cs : List Char} {ls : List Linha} (hb : b = ' ' ∨ b = '\t')
      (h : Layout n cs ls) : Layout n (b::cs) ls
  | newline {n : ℕ} {cs : List Char} {ls : List Linha} (h : Layout n cs ls) :
      Layout (n+1) ('\n' :: cs) ls
  | comment {n : ℕ} {com cs : List Char} {ls : List Linha} (hcom : '\n' ∉ com)
      (h : Layout n cs ls) : Layout (n+1) ('/' :: '/' :: (com ++ '\n' :: cs)) ls
  | assign {n : ℕ} {cs : List Char} {ls : List Linha} {d : Var} {x y : Varc} (op : Op)
      {n₀ n₁ n₂ w₀ w₁ w₂ w₃ : List Char} (hd : Scanf.Numeral n₀ d.number)
      (hx : Scanf.Numeral n₁ x.number) (hy : Scanf.Numeral n₂ y.number) (h₀ : Blanks w₀)
      (h₁ : Blanks w₁) (h₂ : Blanks w₂) (h₃ : Blanks w₃) (h : Layout n cs ls) :
      Layout n (d.letter::(n₀ ++ (w₀ ++ '=' :: (w₁ ++ x.letter::(n₁ ++ (w₂ ++
        op.char::(w₃ ++ y.letter::(n₂ ++ cs)))))))) (.assign d x op y::ls)
  | while {n : ℕ} {cs : List Char} {ls : List Linha} {x : Var} {w n₀ : List Char}
      (hx : Scanf.Numeral n₀ x.number) (hw : Blanks w) (h : Layout n cs ls) :
      Layout n ('w' :: 'h' :: 'i' :: 'l' :: 'e' :: (w ++ x.letter::(n₀ ++ cs))) (.while x::ls)
  | fim {n : ℕ} {cs : List Char} {ls : List Linha} (h : Layout n cs ls) :
      Layout n ('e' :: 'n' :: 'd' :: cs) (.fim::ls)

theorem Blanks.skipSpace {ws cs : List Char} {c : Char} (h : Blanks ws)
    (hc : Scanf.isspace c = false) : Scanf.skipSpace (ws ++ c::cs) = c::cs := by
  refine Scanf.skipSpace_append (fun b hb => ?_) fun c' hc' => ?_
  · obtain rfl | rfl := h b hb <;> decide
  · obtain rfl : c = c' := by simpa using hc'
    exact hc

theorem Blanks.noDigit {ws cs : List Char} {c : Char} (h : Blanks ws) (hc : c.isDigit = false) :
    Scanf.NoDigit (ws ++ c::cs) := by
  intro c' hc'
  cases ws with
  | nil =>
    obtain rfl : c = c' := by simpa using hc'
    exact hc
  | cons b ws =>
    obtain rfl : b = c' := by simpa using hc'
    obtain rfl | rfl := h b (by simp) <;> decide

theorem Var.letter_plain (x : Var) :
    Scanf.isspace x.letter = false ∧ x.letter.isDigit = false ∧ x.letter ≠ 'r' := by
  cases x <;> exact ⟨rfl,rfl,by simp [Var.letter]⟩

theorem Varc.letter_plain (x : Varc) :
    Scanf.isspace x.letter = false ∧ x.letter.isDigit = false := by
  cases x with
  | var x => exact ⟨x.letter_plain.1,x.letter_plain.2.1⟩
  | const c => exact ⟨rfl,rfl⟩

theorem Op.char_plain (op : Op) : Scanf.isspace op.char = false ∧ op.char.isDigit = false := by
  cases op <;> decide

/-- No line begins with a digit, so that the numeral before it ends there. -/
theorem Layout.noDigit {n : ℕ} {cs : List Char} {ls : List Linha} (h : Layout n cs ls) :
    Scanf.NoDigit cs := by
  intro c hc
  cases h with
  | ret =>
    obtain rfl : 'r' = c := by simpa using hc
    decide
  | blank hb =>
    obtain rfl := Option.some.inj hc
    obtain rfl | rfl := hb <;> decide
  | newline =>
    obtain rfl : '\n' = c := by simpa using hc
    decide
  | comment =>
    obtain rfl : '/' = c := by simpa using hc
    decide
  | @assign _ _ _ d =>
    obtain rfl := Option.some.inj hc
    exact d.letter_plain.2.1
  | «while» =>
    obtain rfl : 'w' = c := by simpa using hc
    decide
  | fim =>
    obtain rfl : 'e' = c := by simpa using hc
    decide

/-- The `fscanf` of an assignment reads its fields. -/
theorem leAssign_layout {d : Var} {x y : Varc} {op : Op} {cs n₀ n₁ n₂ w₀ w₁ w₂ w₃ : List Char}
    (hd : Scanf.Numeral n₀ d.number) (hx : Scanf.Numeral n₁ x.number)
    (hy : Scanf.Numeral n₂ y.number) (h₀ : Blanks w₀) (h₁ : Blanks w₁) (h₂ : Blanks w₂)
    (h₃ : Blanks w₃) (hcs : Scanf.NoDigit cs) :
    leAssign (n₀ ++ (w₀ ++ '=' :: (w₁ ++ x.letter::(n₁ ++ (w₂ ++
        op.char::(w₃ ++ y.letter::(n₂ ++ cs))))))) =
      some ((d.number,x.letter,x.number,op.char,y.letter,y.number),cs) := by
  unfold leAssign
  rw [Scanf.int_numeral hd (h₀.noDigit (by decide))]
  simp only [Option.bind_eq_bind,Option.bind_some]
  rw [h₀.skipSpace (by decide)]
  simp only [Scanf.literal,if_true,Option.bind_some]
  rw [h₁.skipSpace x.letter_plain.1]
  simp only [Scanf.char,Option.bind_some]
  rw [Scanf.int_numeral hx (h₂.noDigit op.char_plain.2)]
  simp only [Option.bind_some]
  rw [h₂.skipSpace op.char_plain.1]
  simp only [Option.bind_some]
  rw [h₃.skipSpace y.letter_plain.1]
  simp only [Option.bind_some]
  rw [Scanf.int_numeral hy hcs]
  rfl

theorem leWhile_layout {x : Var} {w n₀ cs : List Char} (hx : Scanf.Numeral n₀ x.number)
    (hw : Blanks w) (hcs : Scanf.NoDigit cs) :
    leWhile ('h' :: 'i' :: 'l' :: 'e' :: (w ++ x.letter::(n₀ ++ cs))) =
      some ((x.letter,x.number),cs) := by
  unfold leWhile
  simp only [Scanf.literal,if_true,Option.bind_eq_bind,Option.bind_some]
  rw [hw.skipSpace x.letter_plain.1]
  simp only [Scanf.char,Option.bind_some]
  rw [Scanf.int_numeral hx hcs]
  rfl

namespace Estado
variable {e e' : Estado} {cs cs' : List Char}

theorem laco_turno {k : ℕ} {c : Char} (hr : c ≠ 'r') (hlinhas : e.linhas ≤ 50)
    (hfit : e.mcodes.length < 50*16) (ht : e.turno c cs = .ok (cs',e')) :
    laco (k+1) (c::cs) e = laco k cs' e' := by
  rw [laco,if_neg (by simp only [hr,false_or]; omega),if_neg (by omega),ht]
  rfl

theorem turno_blank {b : Char} (hb : b = ' ' ∨ b = '	') : e.turno b cs = .ok (cs,e) := by
  obtain rfl | rfl := hb <;> rfl

theorem turno_comment {com : List Char} (hcom : '\n' ∉ com) :
    e.turno '/' ('/' :: (com ++ '\n' :: cs)) =
      .ok (cs,{ e with linhas := e.linhas+1, temp := '\n' }) := by
  have hdrop : (com ++ '\n' :: cs).dropWhile (fun c => !decide (c = '\n')) = '\n' :: cs := by
    rw [List.dropWhile_append_of_pos]
    · rfl
    · intro c hc
      simpa using fun h : c = '\n' => hcom (h ▸ hc)
  simp [turno,comentario,hdrop]

theorem turno_assign {d : Var} {x y : Varc} {op : Op} {n₀ n₁ n₂ w₀ w₁ w₂ w₃ : List Char}
    (hd : Scanf.Numeral n₀ d.number) (hx : Scanf.Numeral n₁ x.number)
    (hy : Scanf.Numeral n₂ y.number) (h₀ : Blanks w₀) (h₁ : Blanks w₁) (h₂ : Blanks w₂)
    (h₃ : Blanks w₃) (hcs : Scanf.NoDigit cs) (he : e.gera (.assign d x op y) = .ok e') :
    e.turno d.letter (n₀ ++ (w₀ ++ '=' :: (w₁ ++ x.letter::(n₁ ++ (w₂ ++
      op.char::(w₃ ++ y.letter::(n₂ ++ cs))))))) = .ok (cs,e') := by
  rw [turno,if_pos d.letter_cases.symm,leAssign_layout hd hx hy h₀ h₁ h₂ h₃ hcs]
  show (e.gera (.assign d x op y) >>= fun e => pure (cs,e)) = _
  rw [he]
  rfl

theorem turno_while {x : Var} {w n₀ : List Char} (hx : Scanf.Numeral n₀ x.number)
    (hw : Blanks w) (hcs : Scanf.NoDigit cs) (he : e.gera (.while x) = .ok e') :
    e.turno 'w' ('h' :: 'i' :: 'l' :: 'e' :: (w ++ x.letter::(n₀ ++ cs))) = .ok (cs,e') := by
  rw [turno,if_neg (by decide),if_pos rfl,leWhile_layout hx hw hcs]
  show (e.gera (.while x) >>= fun e => pure (cs,e)) = _
  rw [he]
  rfl

theorem turno_fim (he : e.gera .fim = .ok e') : e.turno 'e' ('n' :: 'd' :: cs) = .ok (cs,e') := by
  rw [turno,if_neg (by decide),if_neg (by decide),if_pos rfl]
  show (e.gera .fim >>= fun e => pure (cs,e)) = _
  rw [he]
  rfl

end Estado

/-- The loop turns the text into the code of its lines, if buffer and table are large enough. -/
theorem laco_layout {n : ℕ} {cs : List Char} {ls : List Linha} (h : Layout n cs ls) {k : ℕ}
    {e : Estado} {m : List Byte} (hk : cs.length < k) (hlinhas : e.linhas+n ≤ 50)
    (hls : ls.foldlM passo (e.mcodes,e.enderecoCmplWhiles) = some (m,[]))
    (hm : m.length+finalizacao.length ≤ 50*16) :
    Estado.laco k cs e = .ok (m ++ finalizacao) := by
  have hfit : ∀ {e : Estado} {ls : List Linha},
      ls.foldlM passo (e.mcodes,e.enderecoCmplWhiles) = some (m,[]) → e.mcodes.length < 50*16 := by
    intro e ls hls
    have := foldlM_passo_length_le hls
    simp only [finalizacao,List.length_cons,List.length_nil] at hm
    omega
  -- what a line leaves to the lines after it
  have hline : ∀ {e : Estado} {l : Linha} {ls : List Linha},
      (l::ls).foldlM passo (e.mcodes,e.enderecoCmplWhiles) = some (m,[]) →
      ∃ e', e.gera l = .ok e' ∧ e'.linhas = e.linhas ∧
        ls.foldlM passo (e'.mcodes,e'.enderecoCmplWhiles) = some (m,[]) := by
    intro e l ls hls
    rw [List.foldlM_cons] at hls
    obtain ⟨⟨m₁,st₁⟩,h₁,h₂⟩ := Option.bind_eq_some_iff.mp hls
    exact ⟨_,gera_eq h₁,rfl,h₂⟩
  induction h generalizing k e with
  | ret =>
    obtain ⟨k,rfl⟩ := Nat.exists_eq_succ_of_ne_zero (Nat.ne_zero_of_lt hk)
    obtain ⟨hm',hst⟩ := Prod.mk.inj (Option.some.inj hls)
    have : ¬50 < e.linhas := by omega
    rw [Estado.laco,if_pos (.inl rfl),Estado.termina]
    simp only [hst,hm',this,ne_eq,not_true_eq_false,if_false]
    rw [if_neg (by omega)]
  | blank hb h ih =>
    obtain ⟨k,rfl⟩ := Nat.exists_eq_succ_of_ne_zero (Nat.ne_zero_of_lt hk)
    rw [Estado.laco_turno (by rintro rfl; simp at hb) (by omega) (hfit hls)
      (Estado.turno_blank hb)]
    exact ih (Nat.lt_of_succ_lt_succ hk) hlinhas hls
  | newline h ih =>
    obtain ⟨k,rfl⟩ := Nat.exists_eq_succ_of_ne_zero (Nat.ne_zero_of_lt hk)
    rw [Estado.laco_turno (by decide) (by omega) (hfit hls) rfl]
    exact ih (Nat.lt_of_succ_lt_succ hk) (by simp only; omega) hls
  | comment hcom h ih =>
    obtain ⟨k,rfl⟩ := Nat.exists_eq_succ_of_ne_zero (Nat.ne_zero_of_lt hk)
    rw [Estado.laco_turno (by decide) (by omega) (hfit hls) (Estado.turno_comment hcom)]
    exact ih (by simp at hk; omega) (by simp only; omega) hls
  | @assign n cs ls d x y op n₀ n₁ n₂ w₀ w₁ w₂ w₃ hd hx hy h₀ h₁ h₂ h₃ h ih =>
    obtain ⟨k,rfl⟩ := Nat.exists_eq_succ_of_ne_zero (Nat.ne_zero_of_lt hk)
    obtain ⟨e',he,hl,hls'⟩ := hline hls
    rw [Estado.laco_turno d.letter_plain.2.2 (by omega) (hfit hls)
      (Estado.turno_assign hd hx hy h₀ h₁ h₂ h₃ h.noDigit he)]
    exact ih (by simp at hk; omega) (by omega) hls'
  | «while» hx hw h ih =>
    obtain ⟨k,rfl⟩ := Nat.exists_eq_succ_of_ne_zero (Nat.ne_zero_of_lt hk)
    obtain ⟨e',he,hl,hls'⟩ := hline hls
    rw [Estado.laco_turno (by decide) (by omega) (hfit hls)
      (Estado.turno_while hx hw h.noDigit he)]
    exact ih (by simp at hk; omega) (by omega) hls'
  | fim h ih =>
    obtain ⟨k,rfl⟩ := Nat.exists_eq_succ_of_ne_zero (Nat.ne_zero_of_lt hk)
    obtain ⟨e',he,hl,hls'⟩ := hline hls
    rw [Estado.laco_turno (by decide) (by omega) (hfit hls) (Estado.turno_fim he)]
    exact ih (by simp at hk; omega) (by omega) hls'

/-- The code of a program that fits: prologue, the code of its block, epilogue. -/
theorem geracod_layout {n : ℕ} {f : List Char} {b : Block} (h : Layout n f b.linhas) (hn : n < 50)
    (hfit : prologo.length+b.size+finalizacao.length ≤ 50*16) (hdepth : b.depth ≤ 25) :
    geracod f = .ok (prologo ++ b.code ++ finalizacao) := by
  have hls : b.linhas.foldlM passo (prologo,[]) = some (prologo ++ b.code,[]) := by
    have := foldlM_linhas b [] prologo [] (by omega) (by simpa using hdepth)
    simpa using this
  refine laco_layout h (Nat.lt_succ_self _) (by simp only; omega) hls ?_
  simp only [List.length_append,length_code]
  exact hfit

end PucRio.Sb
