import PucRio.Sb.Leitura

/-! The reading loop ends on a file unless it comes to a comment whose line does not end. -/
namespace PucRio.Sb
open Config

section Steps
variable {beyond : Bool → List Char → Int32} {c c' : Config} {cs : List Char} {e e' : Estado}
  {x : Variaveis}

theorem executa_temp {i : Instrucao} (h : e.executa i = .ok e') : e'.temp = e.temp := by
  cases i with
  | assign x =>
    rw [Estado.executa] at h
    cases ha : assign e.linhas x.vartype0 x.var0 x.vartype1 x.var1 x.vartype2 x.var2 x.op with
    | error p =>
      rw [ha] at h
      cases h
    | ok func =>
      rw [ha] at h
      cases h
      rfl
  | «while» type var =>
    rw [Estado.executa] at h
    cases hw : whileFunc e.linhas type var with
    | error p =>
      rw [hw] at h
      cases h
    | ok func =>
      rw [hw] at h
      cases h
      rfl
  | fim =>
    rw [Estado.executa] at h
    cases hst : e.enderecoCmplWhiles with
    | nil =>
      simp only [hst] at h
      cases h
    | cons a as =>
      simp only [hst] at h
      cases h
      rfl

/-- What a turn of the loop leads to: a line that is read, a comment, a blank, or an error. -/
inductive Turno (cs : List Char) (e : Estado) (x : Variaveis) : Config → Prop
  | linha (i : Instrucao) {cs' : List Char} (x' : Variaveis) (h : cs'.length ≤ cs.length) :
      Turno cs e x (.instrucao i cs' e x')
  | comentario (hx : x.vartype0 = '/') (h : cs.head?.getD e.temp = '/') :
      Turno cs e x (.comentario cs.tail { e with temp := '/' } x)
  | branco (linhas : ℕ) : Turno cs e x (.laco cs { e with linhas := linhas } x)
  | erro (p : Parada) : Turno cs e x (.fim (.error p))

theorem turno_cases (cs : List Char) (e : Estado) (x : Variaveis) :
    Turno cs e x (turno beyond cs e x) := by
  have hassign : (Scanf.scan beyond formatoAssign x cs).2.length ≤ cs.length :=
    Scanf.length_scan_le _ _ _
  have hwhile : (Scanf.scan beyond formatoWhile x cs).2.length ≤ cs.length :=
    Scanf.length_scan_le _ _ _
  rw [turno]
  split_ifs with hv hw he hbarra hn hb
  · exact .linha _ _ hassign
  · exact .linha _ _ hwhile
  · refine .linha _ _ ?_
    rw [List.length_drop]
    exact Nat.sub_le _ _
  · dsimp only
    by_cases ht : cs.head?.getD e.temp = '/'
    · rw [if_neg (not_not.mpr ht),ht]
      exact .comentario hbarra ht
    · rw [if_pos ht]
      exact .erro _
  · exact .branco _
  · exact .branco e.linhas
  · exact .erro _

/-- A step at the head of the loop: to the end, or a turn on a character. -/
inductive Cabeca (cs : List Char) (e : Estado) (x : Variaveis) : Config → Prop
  | termina : Cabeca cs e x (.fim e.finaliza)
  | erro (p : Parada) : Cabeca cs e x (.fim (.error p))
  | turno {d : Char} {cs' : List Char} {c : Config} (hcs : cs = d::cs') (hl : e.linhas ≤ 50)
      (hm : e.mcodes.length < 50*16) (h : Turno cs' e { x with vartype0 := d } c) : Cabeca cs e x c

theorem cabeca_of_step (h : (laco cs e x).step beyond = some c) : Cabeca cs e x c := by
  cases cs with
  | nil =>
    cases h
    exact .termina
  | cons d cs =>
    rw [step,Option.some_inj] at h
    split_ifs at h with hr hm
    · subst h
      exact .termina
    · subst h
      exact .erro _
    · subst h
      exact .turno rfl (by omega) (by omega) (turno_cases _ _ _)

/-- The characters still to be read, two for each, and one more within a line. -/
def Config.medida : Config → ℕ
  | .inicio cs _ => 2*cs.length+2
  | .laco cs _ _ => 2*cs.length+1
  | .instrucao _ cs _ _ => 2*cs.length+2
  | .comentario cs _ _ => 2*cs.length+2
  | .fim _ => 0

theorem Turno.medida_le (h : Turno cs e x c) : c.medida ≤ 2*cs.length+2 := by
  cases h with
  | linha i x' h =>
    rw [medida]
    omega
  | comentario hx h =>
    rw [medida,List.length_tail]
    omega
  | branco linhas => exact Nat.le_succ _
  | erro p => exact Nat.zero_le _

theorem Cabeca.medida_lt (h : Cabeca cs e x c) : c.medida < 2*cs.length+1 := by
  cases h with
  | termina => exact Nat.zero_lt_succ _
  | erro p => exact Nat.zero_lt_succ _
  | turno hcs hl hm h =>
    have := h.medida_le
    rw [hcs,List.length_cons]
    omega

/-- A comment that is being skipped at the end of the file. -/
def NoFim (c : Config) : Prop := ∃ e x, c = .comentario [] e x ∧ e.temp ≠ '\n'

theorem medida_step (h : c.step beyond = some c') : NoFim c ∨ c'.medida < c.medida := by
  cases c with
  | inicio cs x =>
    cases h
    exact .inr (Nat.lt_succ_self _)
  | laco cs e x => exact .inr (cabeca_of_step h).medida_lt
  | instrucao i cs e x =>
    refine .inr ?_
    rw [step,Option.some_inj] at h
    subst h
    cases e.executa i with
    | ok e' => exact Nat.lt_succ_self _
    | error p => exact Nat.zero_lt_succ _
  | comentario cs e x =>
    rw [step,Option.some_inj] at h
    subst h
    split_ifs with ht
    · exact .inr (Nat.lt_succ_self _)
    · cases cs with
      | nil => exact .inl ⟨e,x,rfl,ht⟩
      | cons d cs =>
        refine .inr ?_
        simp only [medida,List.tail_cons,List.length_cons]
        omega
  | fim r => cases h

/-- Where a comment begins, its line ends. -/
def Fecha (c : Config) : Prop := ∀ cs e x, c = .laco ('/' :: '/' :: cs) e x → e.linhas ≤ 50 →
  e.mcodes.length < 50*16 → '\n' ∈ cs

/-- In a comment the end of its line is still to come; outside, `temp` is no slash that a slash at
the end of the file could be taken with. -/
def Fechado : Config → Prop
  | .inicio _ _ => True
  | .laco _ e _ => e.temp ≠ '/'
  | .instrucao _ _ e _ => e.temp ≠ '/'
  | .comentario cs e _ => e.temp = '\n' ∨ '\n' ∈ cs
  | .fim _ => True

theorem Fechado.step (h : Fechado c) (hc : Fecha c) (hs : c.step beyond = some c') :
    Fechado c' := by
  cases c with
  | inicio cs x =>
    cases hs
    exact (by decide : ' ' ≠ '/')
  | laco cs e x =>
    cases cabeca_of_step hs with
    | termina => trivial
    | erro p => trivial
    | @turno d cs' _ hcs hl hm ht =>
      subst hcs
      cases ht with
      | linha i x' _ => exact h
      | comentario hx ht =>
        obtain rfl : d = '/' := hx
        cases cs' with
        | nil => exact absurd ht h
        | cons d cs' =>
          obtain rfl : d = '/' := ht
          exact .inr (hc _ _ _ rfl hl hm)
      | branco linhas => exact h
      | erro p => trivial
  | instrucao i cs e x =>
    rw [Config.step,Option.some_inj] at hs
    subst hs
    cases he : e.executa i with
    | ok e' =>
      show e'.temp ≠ '/'
      rw [executa_temp he]
      exact h
    | error p => trivial
  | comentario cs e x =>
    rw [Config.step,Option.some_inj] at hs
    subst hs
    split_ifs with ht
    · show e.temp ≠ '/'
      rw [ht]
      decide
    · have hcs : '\n' ∈ cs := h.resolve_left ht
      cases cs with
      | nil => cases hcs
      | cons d cs =>
        obtain hd | hd := List.mem_cons.mp hcs
        · exact .inl hd.symm
        · exact .inr hd
  | fim r => cases hs

/-- A comment that never ends. -/
def Preso (c : Config) : Prop := ∃ cs e x, c = .comentario cs e x ∧ e.temp ≠ '\n' ∧ '\n' ∉ cs

theorem Preso.step (h : Preso c) (hs : c.step beyond = some c') : Preso c' := by
  obtain ⟨cs,e,x,rfl,ht,hcs⟩ := h
  rw [Config.step,if_neg ht,Option.some_inj] at hs
  subst hs
  refine ⟨_,_,_,rfl,?_,fun h => hcs (List.mem_of_mem_tail h)⟩
  cases cs with
  | nil => exact ht
  | cons d cs => exact fun hd : d = '\n' => hcs (hd ▸ List.mem_cons_self)

theorem Preso.chega (h : Preso c) (hr : Chega beyond c c') : Preso c' := by
  induction hr with
  | refl => exact h
  | tail _ hs ih => exact ih.step hs

/-- From a comment that never ends the loop never ends. -/
theorem Preso.not_chega_fim {c₀ : Config} (h : Preso c) (hc : Chega beyond c₀ c)
    (r : Except Parada (List Byte)) : ¬ Chega beyond c₀ (.fim r) := by
  intro hr
  have hunique : Relator.RightUnique fun c c' : Config => c.step beyond = some c' :=
    fun _ _ _ h h' => Option.some.inj (h.symm.trans h')
  obtain hcr | hrc := Relation.ReflTransGen.total_of_right_unique hunique hc hr
  · obtain ⟨_,_,_,hfim,-⟩ := h.chega hcr
    cases hfim
  · obtain hfim | ⟨_,hfim,-⟩ := Relation.ReflTransGen.cases_head hrc
    · obtain ⟨_,_,_,hc',-⟩ := h
      rw [← hfim] at hc'
      cases hc'
    · cases hfim

theorem preso_of_not_fecha (beyond : Bool → List Char → Int32) (h : ¬ Fecha c) :
    ∃ c', c.step beyond = some c' ∧ Preso c' := by
  simp only [Fecha,not_forall] at h
  obtain ⟨cs,e,x,rfl,hl,hm,hcs⟩ := h
  refine ⟨.comentario cs { e with temp := '/' } { x with vartype0 := '/' },?_,cs,_,_,rfl,
    (by decide : '/' ≠ '\n'),hcs⟩
  rw [step,if_neg (by simp only [not_or]; exact ⟨by decide,by omega⟩),if_neg (by omega)]
  rfl

/-- Every state goes on, or is the end. -/
theorem exists_step (beyond : Bool → List Char → Int32) (c : Config) :
    (∃ r, c = .fim r) ∨ ∃ c', c.step beyond = some c' := by
  cases c with
  | fim r => exact .inl ⟨r,rfl⟩
  | inicio cs x => exact .inr ⟨_,rfl⟩
  | laco cs e x => cases cs <;> exact .inr ⟨_,rfl⟩
  | instrucao i cs e x => exact .inr ⟨_,rfl⟩
  | comentario cs e x => exact .inr ⟨_,rfl⟩

/-- As long as every comment ends, the characters run out. -/
theorem chega_fim {c₀ : Config} (hfecha : ∀ c, Chega beyond c₀ c → Fecha c) {n : ℕ}
    (hc : Chega beyond c₀ c) (hf : Fechado c) (hn : c.medida ≤ n) :
    ∃ r, Chega beyond c₀ (.fim r) := by
  induction n generalizing c with
  | zero =>
    obtain ⟨r,rfl⟩ | ⟨c',hs⟩ := exists_step beyond c
    · exact ⟨r,hc⟩
    · obtain ⟨e,x,rfl,-⟩ | hlt := medida_step hs
      · cases hn
      · omega
  | succ n ih =>
    obtain ⟨r,rfl⟩ | ⟨c',hs⟩ := exists_step beyond c
    · exact ⟨r,hc⟩
    · obtain ⟨e,x,rfl,ht⟩ | hlt := medida_step hs
      · obtain ht' | hmem := hf
        · exact absurd ht' ht
        · cases hmem
      · exact ih (hc.tail hs) (hf.step (hfecha c hc) hs) (by omega)

end Steps

/-- The loop ends on a file if and only if the line of every comment that it comes to ends. -/
theorem termina_iff (beyond : Bool → List Char → Int32) (x : Variaveis) (f : List Char) :
    (∃ r, (leitura beyond x f).Reachable (.fim r)) ↔
      ∀ c, (leitura beyond x f).Reachable c → Fecha c := by
  simp only [reachable_iff_chega]
  constructor
  · rintro ⟨r,hr⟩ c hc
    by_contra hnot
    obtain ⟨c',hs,hp⟩ := preso_of_not_fecha beyond hnot
    exact hp.not_chega_fim (hc.tail hs) r hr
  · intro hfecha
    exact chega_fim hfecha .refl trivial le_rfl

/-- Two slashes at the end of the file. -/
theorem not_termina_comment : ¬ ∀ beyond x f,
    ∃ r, (leitura beyond x f).Reachable (.fim r) := by
  intro hall
  obtain ⟨r,hr⟩ := hall (fun _ _ => 0) ⟨' ',0,' ',0,' ',' ',0⟩ ['/','/']
  rw [reachable_iff_chega] at hr
  have hp : Preso (.comentario [] ⟨prologo,[],1,'/'⟩ ⟨'/',0,' ',0,' ',' ',0⟩) :=
    ⟨_,_,_,rfl,by decide,by decide⟩
  exact hp.not_chega_fim (.head rfl (.head rfl .refl)) r hr

end PucRio.Sb
