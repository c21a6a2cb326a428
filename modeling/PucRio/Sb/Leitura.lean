import PucRio.Lib.TransitionSystem
import PucRio.Sb.Geracod

/-! The reading loop of `geracod`, step by step, on every file: also where an `fscanf` stops early
and leaves variables as they were, and beyond the ends of the buffer and of the table. -/
namespace PucRio.Sb

/-- The variables that are read. At first they hold what the memory held. -/
structure Variaveis where
  vartype0 : Char
  var0 : ℤ
  vartype1 : Char
  var1 : ℤ
  op : Char
  vartype2 : Char
  var2 : ℤ

/-- What a line asks for once it has been read. -/
inductive Instrucao
  | assign (x : Variaveis)
  | while (vartype0 : Char) (var0 : ℤ)
  | fim

/-- `"%d = %c%d %c %c%d"`. -/
def formatoAssign : List (Scanf.Directive Variaveis) :=
  [.int fun n x => { x with var0 := n },.blank,.text ['='],.blank,
    .char fun c x => { x with vartype1 := c },.int fun n x => { x with var1 := n },.blank,
    .char fun c x => { x with op := c },.blank,
    .char fun c x => { x with vartype2 := c },.int fun n x => { x with var2 := n }]

/-- `"hile %c%d"`. -/
def formatoWhile : List (Scanf.Directive Variaveis) :=
  [.text ['h','i','l','e'],.blank,.char fun c x => { x with vartype0 := c },
    .int fun n x => { x with var0 := n }]

namespace Estado

/-- An assignment, a `while` or an `end`. Nothing checks the sizes of the buffer and the table. -/
def executa (e : Estado) : Instrucao → Except Parada Estado
  | .assign x =>
    (assign e.linhas x.vartype0 x.var0 x.vartype1 x.var1 x.vartype2 x.var2 x.op).map fun func =>
      { e with mcodes := e.mcodes ++ func }
  | .while vartype0 var0 => (whileFunc e.linhas vartype0 var0).map fun func => { e with
      mcodes := e.mcodes ++ func
      enderecoCmplWhiles := e.mcodes.length::e.enderecoCmplWhiles }
  | .fim =>
    match e.enderecoCmplWhiles with
    | [] => .error
        (.erro s!"Erro (linha {e.linhas}): nao ha um while aberto para o end declarado.\n")
    | enderecoCmplWhile::enderecos => .ok { e with
        mcodes := endFunc e.mcodes e.mcodes.length enderecoCmplWhile
        enderecoCmplWhiles := enderecos }

/-- What follows the loop. -/
def finaliza (e : Estado) : Except Parada (List Byte) :=
  if e.enderecoCmplWhiles ≠ [] then
    .error (.erro "Erro: nem todos os whiles foram fechados.\n")
  else if 50 < e.linhas then .error (.erro "Erro: maximo de linhas atingido.\n")
  else .ok (e.mcodes ++ finalizacao)

end Estado

/-- Where `geracod` stands: before its first `memcpy`, at the head of the loop, with a line just
read, at the head of the loop that skips a comment, or at its end. -/
inductive Config
  | inicio (cs : List Char) (x : Variaveis)
  | laco (cs : List Char) (e : Estado) (x : Variaveis)
  | instrucao (i : Instrucao) (cs : List Char) (e : Estado) (x : Variaveis)
  | comentario (cs : List Char) (e : Estado) (x : Variaveis)
  | fim (r : Except Parada (List Byte))

namespace Config
variable (beyond : Bool → List Char → Int32)

/-- The `switch`, `vartype[0]` having been read. A slash at the end of the file is followed by
whatever `temp` holds. -/
def turno (cs : List Char) (e : Estado) (x : Variaveis) : Config :=
  if x.vartype0 = 'v' ∨ x.vartype0 = 'p' then
    let (x,cs) := Scanf.scan beyond formatoAssign x cs
    .instrucao (.assign x) cs e x
  else if x.vartype0 = 'w' then
    let (x,cs) := Scanf.scan beyond formatoWhile x cs
    .instrucao (.while x.vartype0 x.var0) cs e x
  else if x.vartype0 = 'e' then .instrucao .fim (cs.drop 2) e x
  else if x.vartype0 = '/' then
    let temp := cs.head?.getD e.temp
    if temp ≠ '/' then .fim (.error (.erro
      (s!"Erro de leitura (linha {e.linhas}): caractere invalido encontrado ('{temp}')\n"
        ++ "Dica: comentarios se iniciam com // e nao com /\n")))
    else .comentario cs.tail { e with temp := temp } x
  else if x.vartype0 = '\n' then .laco cs { e with linhas := e.linhas+1 } x
  else if x.vartype0 = '\t' ∨ x.vartype0 = ' ' then .laco cs e x
  else .fim (.error (.erro
    s!"Erro de leitura (linha {e.linhas}): caractere invalido encontrado ('{x.vartype0}')\n"))

def step : Config → Option Config
  | .inicio cs x => some (.laco cs ⟨prologo,[],1,' '⟩ x)
  | .laco [] e _ => some (.fim e.finaliza)
  | .laco (c::cs) e x => some (
    if c = 'r' ∨ 50 < e.linhas then .fim e.finaliza
    else if 50*16 ≤ e.mcodes.length then
      .fim (.error (.erro "Erro: Numero maximo de instrucoes excedido.\n"))
    else turno beyond cs e { x with vartype0 := c })
  | .instrucao i cs e x => some (
    match e.executa i with
    | .ok e => .laco cs e x
    | .error parada => .fim (.error parada))
  | .comentario cs e x => some (
    if e.temp = '\n' then .laco cs { e with linhas := e.linhas+1 } x
    else .comentario cs.tail { e with temp := cs.head?.getD e.temp } x)
  | .fim _ => none

end Config

/-- The run on a file, with nothing to choose in it. -/
def leitura (beyond : Bool → List Char → Int32) (x : Variaveis) (f : List Char) :
    TransitionSystem Config Unit where
  init := .inicio f x
  step c _ := c.step beyond

section Readings
variable {beyond : Bool → List Char → Int32} {x : Variaveis} {cs cs' : List Char}

/-- A line that is read whole gives the same fields. -/
theorem scan_assign {var0 var1 var2 : ℤ} {type1 op type2 : Char}
    (h : leAssign cs = some ((var0,type1,var1,op,type2,var2),cs')) :
    Scanf.scan beyond formatoAssign x cs = (⟨x.vartype0,var0,type1,var1,op,type2,var2⟩,cs') := by
  simp only [leAssign,Option.bind_eq_bind,Option.bind_eq_some_iff] at h
  obtain ⟨⟨n,cs₀⟩,h0,cs₁,heq,⟨_,_⟩,hc1,⟨_,_⟩,h1,⟨_,_⟩,hop,⟨_,_⟩,hc2,⟨_,_⟩,h2,h⟩ := h
  obtain ⟨hcampos,rfl⟩ := Prod.mk.inj (Option.some.inj h)
  simp only [Prod.mk.injEq] at hcampos
  obtain ⟨rfl,rfl,rfl,rfl,rfl,rfl⟩ := hcampos
  have htext : Scanf.literals ['='] (Scanf.skipSpace cs₀) = (true,cs₁) := by
    simp only [Scanf.literals,heq]
  rw [formatoAssign,Scanf.scan_int h0,Scanf.scan_blank,Scanf.scan_text htext,Scanf.scan_blank,
    Scanf.scan_char hc1,Scanf.scan_int h1,Scanf.scan_blank,Scanf.scan_char hop,Scanf.scan_blank,
    Scanf.scan_char hc2,Scanf.scan_int h2]
  rfl

theorem scan_while {type : Char} {var : ℤ} (h : leWhile cs = some ((type,var),cs')) :
    Scanf.scan beyond formatoWhile x cs = ({ x with vartype0 := type, var0 := var },cs') := by
  simp only [leWhile,Option.bind_eq_bind,Option.bind_eq_some_iff] at h
  obtain ⟨_,hh,_,hi,_,hl,cs₁,he,⟨_,_⟩,hc,⟨_,_⟩,hv,h⟩ := h
  obtain ⟨hcampos,rfl⟩ := Prod.mk.inj (Option.some.inj h)
  obtain ⟨rfl,rfl⟩ := Prod.mk.inj hcampos
  have htext : Scanf.literals ['h','i','l','e'] cs = (true,cs₁) := by
    simp only [Scanf.literals,hh,hi,hl,he]
  rw [formatoWhile,Scanf.scan_text htext,Scanf.scan_blank,Scanf.scan_char hc,Scanf.scan_int hv]
  rfl

end Readings

section Results
variable {beyond : Bool → List Char → Int32} {x : Variaveis} {f cs cs' : List Char} {e e' : Estado}

/-- From here to there in some steps. -/
def Chega (beyond : Bool → List Char → Int32) : Config → Config → Prop :=
  Relation.ReflTransGen fun c c' => c.step beyond = some c'

theorem reachable_iff_chega {c : Config} :
    (leitura beyond x f).Reachable c ↔ Chega beyond (.inicio f x) c := by
  constructor
  · exact Relation.ReflTransGen.mono (fun _ _ ⟨_,_,h⟩ => h) _ _
  · exact Relation.ReflTransGen.mono (fun _ _ h => ⟨(),trivial,h⟩) _ _

theorem chega_executa {i : Instrucao} (h : e.executa i = .ok e') :
    Chega beyond (.instrucao i cs e x) (.laco cs e' x) := by
  refine Relation.ReflTransGen.single ?_
  rw [Config.step,h]

theorem chega_erro {i : Instrucao} {p : Parada} (h : e.executa i = .error p) :
    Chega beyond (.instrucao i cs e x) (.fim (.error p)) := by
  refine Relation.ReflTransGen.single ?_
  rw [Config.step,h]

/-- A result with which `geracod` does end. -/
def Decidido {α : Type} (r : Except Parada α) : Prop :=
  r ≠ .error .semRetorno ∧ r ≠ .error .indefinido

theorem escreve_decidido {bs : List Byte} (h : Decidido (e.escreve bs)) :
    e.escreve bs = .ok { e with mcodes := e.mcodes ++ bs } := by
  rw [Estado.escreve] at h ⊢
  split_ifs at h ⊢ with hfit
  · rfl
  · exact absurd rfl h.2

theorem linhaAssign_decidido {type0 type1 op type2 : Char} {var0 var1 var2 : ℤ}
    (h : Decidido (e.linhaAssign type0 (var0,type1,var1,op,type2,var2))) :
    e.linhaAssign type0 (var0,type1,var1,op,type2,var2) =
      e.executa (.assign ⟨type0,var0,type1,var1,op,type2,var2⟩) := by
  rw [Estado.linhaAssign] at h ⊢
  rw [Estado.executa]
  dsimp only
  cases ha : assign e.linhas type0 var0 type1 var1 type2 var2 op with
  | error p => rfl
  | ok func =>
    rw [ha] at h
    exact escreve_decidido h

theorem linhaWhile_decidido {type : Char} {var : ℤ} (h : Decidido (e.linhaWhile (type,var))) :
    e.linhaWhile (type,var) = e.executa (.while type var) := by
  rw [Estado.linhaWhile] at h ⊢
  rw [Estado.executa]
  split_ifs at h ⊢ with hfit
  · exact absurd rfl h.2
  · cases hw : whileFunc e.linhas type var with
    | error p => rfl
    | ok func =>
      simp only [hw,bind,Except.bind] at h ⊢
      have hescreve : Decidido (e.escreve func) := by
        cases he : e.escreve func with
        | ok e' => exact ⟨by simp,by simp⟩
        | error p =>
          rw [he] at h
          exact ⟨fun hp => h.1 (by cases hp; rfl),fun hp => h.2 (by cases hp; rfl)⟩
      rw [escreve_decidido hescreve]
      rfl

theorem linhaEnd_decidido (h : Decidido e.linhaEnd) : e.linhaEnd = e.executa .fim := by
  rw [Estado.linhaEnd] at h ⊢
  rw [Estado.executa]
  cases hst : e.enderecoCmplWhiles with
  | nil => rfl
  | cons a as =>
    simp only [hst] at h ⊢
    split_ifs at h ⊢ with hfit
    · rfl
    · exact absurd rfl h.2

theorem termina_decidido (h : Decidido e.termina) : e.termina = e.finaliza := by
  rw [Estado.termina] at h ⊢
  rw [Estado.finaliza]
  split_ifs at h ⊢ with hw hl hfit
  · rfl
  · rfl
  · exact absurd rfl h.2
  · rfl

/-- A comment is skipped up to the end of its line. -/
theorem chega_comentario {com : List Char} (hcom : '\n' ∉ com) (ht : e.temp ≠ '\n') :
    Chega beyond (.comentario (com ++ '\n' :: cs) e x)
      (.laco cs { e with linhas := e.linhas+1, temp := '\n' } x) := by
  induction com generalizing e with
  | nil =>
    refine .head (b := .comentario cs { e with temp := '\n' } x) ?_ (.single ?_)
    · rw [Config.step,if_neg ht]
      rfl
    · rw [Config.step,if_pos rfl]
  | cons c com ih =>
    have hc : c ≠ '\n' := fun h => hcom (h ▸ List.mem_cons_self)
    refine .head ?_ (ih (e := { e with temp := c }) (fun h => hcom (List.mem_cons_of_mem c h)) hc)
    rw [Config.step,if_neg ht]
    rfl

/-- The run from `c` follows a turn of the loop that has this result. -/
def Segue (beyond : Bool → List Char → Int32) (c : Config)
    (r : Except Parada (List Char × Estado)) : Prop :=
  (∀ cs e, r = .ok (cs,e) → ∃ x, Chega beyond c (.laco cs e x)) ∧
    ∀ p, r = .error p → Chega beyond c (.fim (.error p))

theorem segue_erro {p : Parada} {c : Config} (h : Chega beyond c (.fim (.error p))) :
    Segue beyond c (.error p) := by
  constructor
  · intro _ _ h
    cases h
  · intro _ hp
    cases hp
    exact h

theorem segue_laco {c : Config} (h : Chega beyond c (.laco cs e x)) :
    Segue beyond c (.ok (cs,e)) := by
  constructor
  · intro _ _ he
    cases he
    exact ⟨x,h⟩
  · intro _ h
    cases h

theorem segue_instrucao {i : Instrucao} {l : Except Parada Estado}
    (hl : Decidido l → l = e.executa i) (hd : Decidido (l >>= fun e => pure (cs,e))) :
    Segue beyond (.instrucao i cs e x) (l >>= fun e => pure (cs,e)) := by
  cases l with
  | error p =>
    have hp : e.executa i = .error p :=
      (hl ⟨fun h => hd.1 (by cases h; rfl),fun h => hd.2 (by cases h; rfl)⟩).symm
    exact segue_erro (chega_erro hp)
  | ok e' =>
    have he : e.executa i = .ok e' := (hl ⟨by simp,by simp⟩).symm
    exact segue_laco (chega_executa he)

theorem segue_turno (hd : Decidido (e.turno x.vartype0 cs)) :
    Segue beyond (Config.turno beyond cs e x) (e.turno x.vartype0 cs) := by
  rw [Config.turno]
  rw [Estado.turno] at hd ⊢
  by_cases hv : x.vartype0 = 'v' ∨ x.vartype0 = 'p'
  · rw [if_pos hv] at hd ⊢
    rw [if_pos hv]
    cases hr : leAssign cs with
    | none =>
      rw [hr] at hd
      exact absurd rfl hd.2
    | some r =>
      obtain ⟨⟨var0,type1,var1,op,type2,var2⟩,cs'⟩ := r
      rw [hr] at hd
      rw [scan_assign hr]
      exact segue_instrucao (linhaAssign_decidido ·) hd
  rw [if_neg hv] at hd ⊢
  rw [if_neg hv]
  by_cases hw : x.vartype0 = 'w'
  · rw [if_pos hw] at hd ⊢
    rw [if_pos hw]
    cases hr : leWhile cs with
    | none =>
      rw [hr] at hd
      exact absurd rfl hd.2
    | some r =>
      obtain ⟨⟨type,var⟩,cs'⟩ := r
      rw [hr] at hd
      rw [scan_while hr]
      exact segue_instrucao (linhaWhile_decidido ·) hd
  rw [if_neg hw] at hd ⊢
  rw [if_neg hw]
  by_cases he : x.vartype0 = 'e'
  · rw [if_pos he] at hd ⊢
    rw [if_pos he]
    exact segue_instrucao linhaEnd_decidido hd
  rw [if_neg he] at hd ⊢
  rw [if_neg he]
  by_cases hbarra : x.vartype0 = '/'
  · rw [if_pos hbarra] at hd ⊢
    rw [if_pos hbarra]
    rw [Estado.comentario] at hd ⊢
    dsimp only at hd ⊢
    by_cases ht : cs.head?.getD e.temp ≠ '/'
    · rw [if_pos ht,if_pos ht]
      exact segue_erro .refl
    · rw [if_neg ht] at hd ⊢
      rw [if_neg ht]
      have hsplit := List.takeWhile_append_dropWhile (p := fun c => !decide (c = '\n')) (l := cs.tail)
      have hhead := List.head?_dropWhile_not (fun c => !decide (c = '\n')) cs.tail
      have hmem := @List.all_takeWhile _ (fun c => !decide (c = '\n')) cs.tail
      cases hdrop : cs.tail.dropWhile fun c => !decide (c = '\n') with
      | nil =>
        simp only [decide_not,hdrop] at hd
        exact absurd rfl hd.1
      | cons c rest =>
        simp only [decide_not,hdrop] at hd ⊢
        rw [hdrop] at hsplit hhead
        obtain rfl : c = '\n' := by simpa using hhead
        rw [← hsplit]
        refine segue_laco (chega_comentario (fun h => ?_) ?_)
        · simpa using List.all_eq_true.mp hmem _ h
        · rw [not_not] at ht
          dsimp only
          rw [ht]
          decide
  rw [if_neg hbarra,if_neg hbarra]
  split_ifs
  · exact segue_laco .refl
  · exact segue_laco .refl
  · exact segue_erro .refl

theorem chega_laco {n : ℕ} (hd : Decidido (Estado.laco n cs e)) :
    Chega beyond (.laco cs e x) (.fim (Estado.laco n cs e)) := by
  induction n generalizing cs e x with
  | zero => exact absurd rfl hd.1
  | succ n ih =>
    cases cs with
    | nil =>
      rw [Estado.laco] at hd ⊢
      refine .single ?_
      rw [Config.step,termina_decidido hd]
    | cons c cs =>
      rw [Estado.laco] at hd ⊢
      by_cases hr : c = 'r' ∨ 50 < e.linhas
      · rw [if_pos hr] at hd ⊢
        refine .single ?_
        rw [Config.step,if_pos hr,termina_decidido hd]
      rw [if_neg hr] at hd ⊢
      by_cases hm : 50*16 ≤ e.mcodes.length
      · rw [if_pos hm]
        refine .single ?_
        rw [Config.step,if_neg hr,if_pos hm]
      rw [if_neg hm] at hd ⊢
      have hstep : (Config.laco (c::cs) e x).step beyond =
          some (Config.turno beyond cs e { x with vartype0 := c }) := by
        rw [Config.step,if_neg hr,if_neg hm]
      refine .head hstep ?_
      have hturno : Decidido (e.turno c cs) →
          Segue beyond (Config.turno beyond cs e { x with vartype0 := c }) (e.turno c cs) :=
        segue_turno (x := { x with vartype0 := c })
      cases ht : e.turno c cs with
      | error p =>
        rw [ht] at hd hturno
        have hp : Decidido (.error p : Except Parada (List Char × Estado)) :=
          ⟨fun h => hd.1 (by cases h; rfl),fun h => hd.2 (by cases h; rfl)⟩
        exact (hturno hp).2 p rfl
      | ok r =>
        obtain ⟨cs',e'⟩ := r
        rw [ht] at hd hturno
        obtain ⟨x',hx'⟩ := (hturno ⟨by simp,by simp⟩).1 cs' e' rfl
        exact hx'.trans (ih hd)

/-- Where the function of the source has been given a result, every run ends with it. -/
theorem reachable_geracod (hd : Decidido (geracod f)) :
    (leitura beyond x f).Reachable (.fim (geracod f)) :=
  reachable_iff_chega.mpr (.head rfl (chega_laco hd))

end Results

end PucRio.Sb
