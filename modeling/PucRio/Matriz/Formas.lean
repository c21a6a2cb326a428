import Mathlib.Order.Lattice.Nat
import PucRio.Matriz.Operacoes

/-! Sequences of operations on any number of matrices in one memory. They keep the shape of every matrix
as long as nothing is added to one that was emptied: what is added then is not counted. -/
namespace PucRio.Matriz

section Uma
variable {A : Alocador} {h h' : Memoria} {m : Cabeca} {p p' : Option Cabeca}
  {g g' : ℤ × ℤ → Endereco} {a : Acao}

/-- The addresses of its nodes, none if there is no matrix. -/
def Nos (p : Option Cabeca) (g : ℤ × ℤ → Endereco) : Set Endereco :=
  {b | ∃ m, p = some m ∧ ∃ c ∈ Retangulo m.numLinhas m.numColunas, g c = b}

def EmGrade (h : Memoria) (p : Option Cabeca) (g : ℤ × ℤ → Endereco) : Prop :=
  ∀ m, p = some m → Grade .linha h m g

theorem EmGrade.vivo (hg : EmGrade h p g) {b : Endereco} (hb : b ∈ Nos p g) : h.Vivo b := by
  obtain ⟨m,hm,c,hc,rfl⟩ := hb
  exact (hg m hm).vivos c hc

/-- `Preserva` for a matrix that may not exist. -/
def Poupa (h : Memoria) (p : Option Cabeca) (g : ℤ × ℤ → Endereco) (h' : Memoria)
    (p' : Option Cabeca) (g' : ℤ × ℤ → Endereco) : Prop :=
  ∀ b, h.Vivo b → b ∉ Nos p g → h'.Vivo b ∧ h'.no b = h.no b ∧ b ∉ Nos p' g'

theorem Preserva.poupa {m' : Cabeca} (hp : Preserva .linha h m g h' m' g') :
    Poupa h (some m) g h' (some m') g' := by
  intro b hb hout
  obtain ⟨hvivo,hno,hnew⟩ := hp b hb fun c hc heq => hout ⟨m,rfl,c,hc,heq⟩
  refine ⟨hvivo,hno,?_⟩
  rintro ⟨n,hn,c,hc,heq⟩
  obtain rfl := Option.some.inj hn
  exact hnew c hc heq

theorem Grade.emGrade (hg : Grade .linha h m g) : EmGrade h (some m) g := by
  intro n hn
  obtain rfl := Option.some.inj hn
  exact hg

/-- A line or a column is added where there is no node. -/
def AdicionaAVazia (p : Option Cabeca) (a : Acao) : Prop :=
  (a = .adicionarLinha ∨ a = .adicionarColuna) ∧ ∃ m, p = some m ∧ m.pElemCorr = none

theorem adicionar_emGrade (hg : EmGrade h (some m) g) (hm : m.pElemCorr ≠ none) (x : Eixo) :
    ∃ h' m' g', adicionar A x h m = .ok (h',m') ∧ EmGrade h' (some m') g' ∧
      Poupa h (some m) g h' (some m') g' := by
  obtain ⟨h',m',g',hok,hg',hp⟩ := (hg m rfl).adicionar (A := A) hm x
  exact ⟨h',m',g',hok,hg'.emGrade,hp.poupa⟩

theorem remover_emGrade (hg : EmGrade h (some m) g) (x : Eixo) :
    ∃ h' m' r g', remover x h m = .ok (h',m',r) ∧ EmGrade h' (some m') g' ∧
      Poupa h (some m) g h' (some m') g' := by
  obtain ⟨h',m',r,g',hok,hg',hp⟩ := (hg m rfl).remover x
  exact ⟨h',m',r,g',hok,hg'.emGrade,hp.poupa⟩

theorem executa_ok (hg : EmGrade h p g) (ha : ¬ AdicionaAVazia p a) :
    ∃ h' p' r g', executa A h p a = .ok (h',p',r) ∧ EmGrade h' p' g' ∧ Poupa h p g h' p' g' := by
  have hmesma : Poupa h p g h p g := fun b hb hout => ⟨hb,rfl,hout⟩
  have hcriar (l c : ℤ) : ∃ h' p' r g', MAT_CriarMatriz A h p l c = .ok (h',p',r) ∧
      EmGrade h' p' g' ∧ Poupa h p g h' p' g' := by
    by_cases hpos : l ≤ 0 ∨ c ≤ 0
    · exact ⟨h,p,_,g,if_pos hpos,hg,hmesma⟩
    · have hl : 0 < l := by omega
      have hc : 0 < c := by omega
      obtain ⟨h',m',g',hok,hg',hp⟩ := criarMatriz_ok (A := A) h p hl hc
      refine ⟨h',_,_,g',hok,hg'.emGrade,fun b hb _ => ?_⟩
      obtain ⟨hvivo,hno,hnew⟩ := hp b hb
      refine ⟨hvivo,hno,?_⟩
      rintro ⟨n,hn,c,hc,heq⟩
      obtain rfl := Option.some.inj hn
      exact hnew c hc heq
  cases p with
  | none =>
    cases a with
    | criarMatriz l c => exact hcriar l c
    | _ => exact ⟨h,none,_,g,rfl,hg,hmesma⟩
  | some m =>
    have hm (hadd : a = .adicionarLinha ∨ a = .adicionarColuna) : m.pElemCorr ≠ none :=
      fun hm => ha ⟨hadd,m,rfl,hm⟩
    cases a with
    | criarMatriz l c => exact hcriar l c
    | adicionarLinha =>
      obtain ⟨h',m',g',hok,hg',hp⟩ := adicionar_emGrade (A := A) hg (hm (.inl rfl)) .linha
      exact ⟨h',_,_,g',congrArg (· >>= _) hok,hg',hp⟩
    | adicionarColuna =>
      obtain ⟨h',m',g',hok,hg',hp⟩ := adicionar_emGrade (A := A) hg (hm (.inr rfl)) .coluna
      exact ⟨h',_,_,g',congrArg (· >>= _) hok,hg',hp⟩
    | removerLinha =>
      obtain ⟨h',m',r,g',hok,hg',hp⟩ := remover_emGrade hg .linha
      exact ⟨h',_,_,g',congrArg (· >>= _) hok,hg',hp⟩
    | removerColuna =>
      obtain ⟨h',m',r,g',hok,hg',hp⟩ := remover_emGrade hg .coluna
      exact ⟨h',_,_,g',congrArg (· >>= _) hok,hg',hp⟩
    | irPara d =>
      obtain ⟨m',r,hok,hg',hp⟩ := (hg m rfl).irPara d
      exact ⟨h,_,_,g,congrArg (· >>= _) hok,hg'.emGrade,hp.poupa⟩

/-- The one node that is added is the current one, but no line of it is counted. -/
theorem adicionar_vazia {x : Eixo} (hm : m.pElemCorr = none) (hc : x.comp m = 0) :
    adicionar A x h m = .ok ((h.CriarNo A).1,
      x.muda { m with pElemCorr := some (h.CriarNo A).2 } (x.num m+1) 0) := by
  have hvivo : (h.CriarNo A).1.Vivo (h.CriarNo A).2 := vivo_CriarNo.mpr (.inl rfl)
  have hle : (h.CriarNo A).1.le (some (h.CriarNo A).2) (x.coord .Norte) = .ok none := by
    rw [le_some hvivo,aponta_CriarNo,if_pos rfl]
  have hinicio : inicio A x h m =
      .ok ((h.CriarNo A).1,{ m with pElemCorr := some (h.CriarNo A).2 },some (h.CriarNo A).2) := by
    simp [inicio,hm,ok_bind,hle]
  rw [adicionar,avanca,if_pos hm,ok_bind,avanca,if_pos hm,ok_bind,hinicio,ok_bind]
  simp [proximos,hc,ok_bind]

theorem not_grade_adicionar {x : Eixo} {q : Endereco} {n : ℤ} :
    ¬ Grade .linha h (x.muda { m with pElemCorr := some q } n 0) g := by
  intro hg
  obtain ⟨hm,-⟩ | ⟨c,hc,-⟩ := hg.corr
  · rw [corr_muda] at hm
    cases hm
  · cases x with
    | linha => exact absurd hc.2.2.2 (not_lt.mpr hc.2.2.1)
    | coluna => exact absurd hc.2.1 (not_lt.mpr hc.1)

end Uma

section Varias
variable {ι : Type*} {A : Alocador} {s : Estado ι} {g : ι → ℤ × ℤ → Endereco}

/-- Every matrix is a full grid of linked nodes, and its current node is one of them. -/
def Estado.Formado (s : Estado ι) : Prop :=
  ∀ v m, s.matrizes v = some m → ∃ g, Grade .linha s.mem m g

/-- No two matrices share a node. -/
structure Separadas (s : Estado ι) (g : ι → ℤ × ℤ → Endereco) : Prop where
  grade : ∀ v, EmGrade s.mem (s.matrizes v) (g v)
  disjuntas : ∀ v w, v ≠ w → ∀ b ∈ Nos (s.matrizes v) (g v), b ∉ Nos (s.matrizes w) (g w)

theorem Separadas.formado (hs : Separadas s g) : s.Formado :=
  fun v m hm => ⟨g v,hs.grade v m hm⟩

theorem EmGrade.congr {h h' : Memoria} {p : Option Cabeca} {g : ℤ × ℤ → Endereco}
    (hg : EmGrade h p g) (hvivo : ∀ b ∈ Nos p g, h'.Vivo b)
    (hno : ∀ b ∈ Nos p g, h'.no b = h.no b) : EmGrade h' p g := by
  intro m hm
  refine ⟨(hg m hm).ligada.congr fun c hc => ?_,fun c hc => hvivo _ ⟨m,hm,c,hc,rfl⟩,(hg m hm).corr⟩
  funext d
  exact (no_eq_iff .linha).mp (hno _ ⟨m,hm,c,hc,rfl⟩) d

variable [DecidableEq ι] {v w : ι} {h' : Memoria} {p' : Option Cabeca}

theorem matrizes_troca_self : (s.troca v h' p').matrizes v = p' := Function.update_self ..

theorem matrizes_troca_of_ne (hw : w ≠ v) : (s.troca v h' p').matrizes w = s.matrizes w :=
  Function.update_of_ne hw ..

/-- One matrix changes, and what is not a node of it stays. -/
theorem Separadas.troca (hs : Separadas s g) {g' : ℤ × ℤ → Endereco} (hg' : EmGrade h' p' g')
    (hp : Poupa s.mem (s.matrizes v) (g v) h' p' g') :
    Separadas (s.troca v h' p') (Function.update g v g') := by
  have houtra {w : ι} (hw : w ≠ v) (b : Endereco) (hb : b ∈ Nos (s.matrizes w) (g w)) :=
    hp b ((hs.grade w).vivo hb) (hs.disjuntas w v hw b hb)
  constructor
  · intro w
    by_cases hw : w = v
    · rw [hw,matrizes_troca_self,Function.update_self]
      exact hg'
    · rw [matrizes_troca_of_ne hw,Function.update_of_ne hw]
      exact (hs.grade w).congr (fun b hb => (houtra hw b hb).1) fun b hb => (houtra hw b hb).2.1
  · intro w u hwu b hb
    by_cases hw : w = v
    · have hu : u ≠ v := fun h => hwu (hw.trans h.symm)
      rw [hw,matrizes_troca_self,Function.update_self] at hb
      rw [matrizes_troca_of_ne hu,Function.update_of_ne hu]
      exact fun hb' => (houtra hu b hb').2.2 hb
    · rw [matrizes_troca_of_ne hw,Function.update_of_ne hw] at hb
      by_cases hu : u = v
      · rw [hu,matrizes_troca_self,Function.update_self]
        exact (houtra hw b hb).2.2
      · rw [matrizes_troca_of_ne hu,Function.update_of_ne hu]
        exact hs.disjuntas w u hwu b hb

theorem Separadas.step (hs : Separadas s g) {a : ι × Acao}
    (ha : ¬ AdicionaAVazia (s.matrizes a.1) a.2) :
    ∃ t, (modulo A ι).step s a = some t ∧ ∃ g', Separadas t g' := by
  obtain ⟨h',p',r,g',hok,hg',hp⟩ := executa_ok (A := A) (hs.grade a.1) ha
  refine ⟨_,?_,_,hs.troca hg' hp⟩
  change (executa A s.mem (s.matrizes a.1) a.2).toOption.map _ = _
  rw [hok]
  rfl

theorem separadas_init : Separadas (modulo A ι).init fun _ _ => 0 := by
  refine ⟨fun v m hm => ?_,fun v w _ b hb => ?_⟩
  · cases hm
  · obtain ⟨m,hm,-⟩ := hb
    cases hm

theorem not_formado_step (hs : Separadas s g) {a : ι × Acao}
    (ha : AdicionaAVazia (s.matrizes a.1) a.2) {t : Estado ι}
    (ht : (modulo A ι).step s a = some t) : ¬ t.Formado := by
  obtain ⟨v,a⟩ := a
  obtain ⟨hadd,m,hm,hcorr⟩ := ha
  change s.matrizes v = some m at hm
  change (executa A s.mem (s.matrizes v) a).toOption.map _ = some t at ht
  have hvazia : m.numLinhas = 0 ∧ m.numColunas = 0 := by
    obtain ⟨-,hnum,hcomp⟩ | ⟨c,-,hc⟩ := (hs.grade v m hm).corr
    · exact ⟨hnum,hcomp⟩
    · rw [hcorr] at hc
      cases hc
  have hexec : ∃ x n q h', executa A s.mem (some m) a =
      .ok (h',some (Eixo.muda { m with pElemCorr := some q } n 0 x),.OK) := by
    obtain rfl | rfl := hadd
    · exact ⟨.linha,_,_,_,congrArg (· >>= _) (adicionar_vazia (x := .linha) hcorr hvazia.2)⟩
    · exact ⟨.coluna,_,_,_,congrArg (· >>= _) (adicionar_vazia (x := .coluna) hcorr hvazia.1)⟩
  obtain ⟨x,n,q,h',hx⟩ := hexec
  rw [hm,hx] at ht
  obtain rfl := Option.some.inj ht
  intro hf
  obtain ⟨g',hg'⟩ := hf v _ matrizes_troca_self
  exact not_grade_adicionar hg'

/-- The grids stay as they should exactly as long as nothing is added to an emptied matrix. -/
theorem formado_iff (A : Alocador) (l : List (ι × Acao)) :
    (∀ k, ∃ s, (modulo A ι).exec (modulo A ι).init (l.take k) = some s ∧ s.Formado) ↔
      ∀ k a s, l[k]? = some a → (modulo A ι).exec (modulo A ι).init (l.take k) = some s →
        ¬ AdicionaAVazia (s.matrizes a.1) a.2 := by
  apply TransitionSystem.exec_take_iff (I := fun s => ∃ g, Separadas s g)
  · rintro s ⟨g,hs⟩
    exact hs.formado
  · rintro s a ⟨g,hs⟩ ha
    exact hs.step ha
  · rintro s a t ⟨g,hs⟩ ha ht
    exact not_formado_step hs (not_not.mp ha) ht
  · exact ⟨_,separadas_init⟩

/-- Addresses in increasing order. -/
def crescente : Alocador where
  aloca _ s := s.sup id+1
  livre _ _ hs := absurd (Finset.le_sup (f := id) hs) (Nat.not_succ_le_self _)

theorem matrizes_readded : (((modulo crescente Unit).exec (modulo crescente Unit).init
    [((),.criarMatriz 1 1),((),.removerLinha),((),.adicionarLinha)]).map fun s => s.matrizes ()) =
    some (some ⟨some 1,1,0⟩) := by
  decide

/-- One line of one node, taken away and added again. -/
theorem not_formado_readded : ¬ ∀ (A : Alocador) (l : List (Unit × Acao)), ∀ k,
    ∃ s, (modulo A Unit).exec (modulo A Unit).init (l.take k) = some s ∧ s.Formado := by
  intro hall
  obtain ⟨s,hs,hf⟩ := hall crescente [((),.criarMatriz 1 1),((),.removerLinha),((),.adicionarLinha)] 3
  have hm : (some s).map (fun s => s.matrizes ()) = some (some ⟨some 1,1,0⟩) := hs ▸ matrizes_readded
  obtain ⟨g,hg⟩ := hf () _ (Option.some.inj hm)
  obtain ⟨hcorr,-⟩ | ⟨p,hp,-⟩ := hg.corr
  · cases hcorr
  · exact absurd hp.2.2.2 (not_lt.mpr hp.2.2.1)

end Varias

end PucRio.Matriz
