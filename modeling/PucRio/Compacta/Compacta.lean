import PucRio.Lib.CInt
import Mathlib.Data.BitVec

/-! The compact file: what `compacta` writes for an array of structs, and what `mostra` prints of
such a file. Memory is a function from addresses to bytes, and an address the distance from the
pointer, which is negative in front of it. -/
namespace PucRio.Compacta

abbrev Byte := BitVec 8

def NUL : Char := Char.ofNat 0

/-- The memory that `campos` points to: a string, its end, and what lies behind. -/
structure Campos where
  texto : List Char
  nul_notMem : NUL ∉ texto
  resto : ℕ → Char

def Campos.strlen (campos : Campos) : ℕ := campos.texto.length

def Campos.get (campos : Campos) (i : ℕ) : Char :=
  (campos.texto++[NUL])[i]?.getD (campos.resto (i-campos.strlen-1))

/-- The loop `while (n % a != 0) n++` on an `int`, which ends within `a` rounds. -/
def pularPadding (a : ℕ) : ℕ → ℤ → ℤ
  | 0,n => n
  | k+1,n => if n.tmod a ≠ 0 then pularPadding a k (wrap32 (n+1)) else n

/-- The bytes of a value of `tam` bytes in the order of `ord`. The memory has the low byte
first. -/
def escreveValor (valor : ℤ → Byte) (ord : Char) (tam : ℕ) (memcounter : ℤ) : List Byte :=
  if ord = 'L' then (List.range tam).map fun j : ℕ => valor (memcounter+j)
  else (List.range tam).reverse.map fun j : ℕ => valor (memcounter+j)

def compacta_processaStruct (valor : ℤ → Byte) (ord : Char) : List Char → ℤ → List Byte
  | [],_ => []
  | c::campos,memcounter =>
    match c with
    | 'c' => valor memcounter::compacta_processaStruct valor ord campos (wrap32 (memcounter+1))
    | 's' =>
      let memcounter := pularPadding 2 2 memcounter
      escreveValor valor ord 2 memcounter++
        compacta_processaStruct valor ord campos (wrap32 (memcounter+2))
    | 'i' =>
      let memcounter := pularPadding 4 4 memcounter
      escreveValor valor ord 4 memcounter++
        compacta_processaStruct valor ord campos (wrap32 (memcounter+4))
    | _ => compacta_processaStruct valor ord campos memcounter

/-- The variables of the loop that writes the kinds of the fields. -/
structure Cabecalho where
  byteatual : Byte
  tamstruct : ℤ
  hasS : Bool
  hasI : Bool

def processaTipo (c : Char) (j : ℕ) (h : Cabecalho) : Cabecalho :=
  match c with
  | 'c' =>
    { h with
      byteatual := h.byteatual ||| 0x01 <<< (2*j)
      tamstruct := wrap32 (h.tamstruct+1) }
  | 's' =>
    { h with
      byteatual := h.byteatual ||| 0x02 <<< (2*j)
      tamstruct := wrap32 (pularPadding 2 2 h.tamstruct+2)
      hasS := true }
  | 'i' =>
    { h with
      byteatual := h.byteatual ||| 0x03 <<< (2*j)
      tamstruct := wrap32 (pularPadding 4 4 h.tamstruct+4)
      hasI := true }
  | _ => h

/-- Four fields from `i` on, which make one byte. -/
def processaGrupo (campos : Campos) (i : ℕ) (h : Cabecalho) : Cabecalho :=
  [3,2,1,0].foldl (fun h j => processaTipo (campos.get (i+(3-j))) j h) { h with byteatual := 0 }

/-- The loop over the fields, of `k` groups from `i` on. -/
def processaTipos (campos : Campos) : ℕ → ℕ → Cabecalho → List Byte × Cabecalho
  | 0,_,h => ([],h)
  | k+1,i,h =>
    let h := processaGrupo campos i h
    let (bytes,h') := processaTipos campos k (i+4) h
    (h.byteatual::bytes,h')

/-- The size of a struct, with the padding at its end. -/
def Cabecalho.tamanho (h : Cabecalho) : ℤ :=
  if h.hasI && h.tamstruct.tmod 4 != 0 then pularPadding 4 4 h.tamstruct
  else if h.hasS && h.tamstruct.tmod 2 != 0 then pularPadding 2 2 h.tamstruct
  else h.tamstruct

/-- The file, and the value returned. The place `i*tamstruct` of a struct is an `int` as well. -/
def compacta (nstructs : ℤ) (valores : ℤ → Byte) (campos : Campos) (ord : Char) :
    List Byte × ℤ :=
  let numMaxCampos := BitVec.ofNat 8 campos.strlen
  let numMaxCampos := if ord = 'L' then numMaxCampos ||| 0x80 else numMaxCampos
  let (tipos,h) := processaTipos campos ((campos.strlen+3)/4) 0 ⟨0,0,false,false⟩
  let structs := (List.range nstructs.toNat).flatMap fun i : ℕ =>
    compacta_processaStruct (fun k => valores (wrap32 (i*h.tamanho)+k)) ord campos.texto 0
  (BitVec.ofInt 8 nstructs::numMaxCampos::tipos++structs,0)

/-- Why `mostra` has no result: it wrote outside of the vector `tipovar`, or read a variable that
was never written. -/
inductive Stop
  | foraDoVetor
  | naoIniciado
  deriving DecidableEq, Repr

/-- `fscanf` of one `char` into `leitor`, which stays as it is at the end of the file. -/
def leChar : Byte → List Byte → Byte × List Byte
  | leitor,[] => (leitor,[])
  | _,b::arquivo => (b,arquivo)

/-- Up to `k` kinds out of `leitor`, the next one for position `pos`. -/
def separaTipos : ℕ → ℕ → Byte → List (Option Byte) → Except Stop (List (Option Byte) × Byte)
  | 0,_,leitor,tipovar => .ok (tipovar,leitor)
  | k+1,pos,leitor,tipovar =>
    if leitor = 0 then .ok (tipovar,leitor)
    else if pos < tipovar.length then
      separaTipos k (pos+1) (leitor <<< 2) (tipovar.set pos (some (leitor.sshiftRight 6 &&& 0x03)))
    else .error .foraDoVetor

/-- The loop over the kinds of the fields, of `k` bytes. -/
def leTipos : ℕ → ℕ → Byte → List Byte → List (Option Byte) →
    Except Stop (List (Option Byte) × Byte × List Byte)
  | 0,_,leitor,arquivo,tipovar => .ok (tipovar,leitor,arquivo)
  | k+1,i,leitor,arquivo,tipovar => do
    let (leitor,arquivo) := leChar leitor arquivo
    let (tipovar,leitor) ← separaTipos 4 i leitor tipovar
    leTipos k (i+4) leitor arquivo tipovar

/-- `%d` -/
def decimal (n : ℤ) : List Char :=
  if n < 0 then '-'::Nat.toDigits 10 n.natAbs else Nat.toDigits 10 n.natAbs

def mostraByte (leitor : Byte) : List Char :=
  if leitor.sshiftRight 4 = 0 then '0'::Nat.toDigits 16 leitor.toNat++[' ']
  else Nat.toDigits 16 leitor.toNat++[' ']

def mostraBytes : ℕ → Byte → List Byte → List Char × Byte × List Byte
  | 0,leitor,arquivo => ([],leitor,arquivo)
  | k+1,leitor,arquivo =>
    let (leitor,arquivo) := leChar leitor arquivo
    let (texto,leitor',arquivo) := mostraBytes k leitor arquivo
    (mostraByte leitor++texto,leitor',arquivo)

/-- `pow(2,t-1)` as an `int`. -/
def nbytes (t : Byte) : ℕ := if t = 0 then 0 else 2^(t.toNat-1)

def mostraCampos : List (Option Byte) → Byte → List Byte →
    Except Stop (List Char × Byte × List Byte)
  | [],leitor,arquivo => .ok ([],leitor,arquivo)
  | none::_,_,_ => .error .naoIniciado
  | some t::tipovar,leitor,arquivo => do
    let (texto,leitor,arquivo) := mostraBytes (nbytes t) leitor arquivo
    let (texto',leitor,arquivo) ← mostraCampos tipovar leitor arquivo
    return (texto++ '\n' :: texto',leitor,arquivo)

def separador : List Char := "------------\n".toList

def mostraStructs (tipovar : List (Option Byte)) : ℕ → Byte → List Byte →
    Except Stop (List Char × List Byte)
  | 0,_,arquivo => .ok ([],arquivo)
  | k+1,leitor,arquivo => do
    let (texto,leitor,arquivo) ← mostraCampos tipovar leitor arquivo
    let (texto',arquivo) ← mostraStructs tipovar k leitor arquivo
    return (separador++texto++texto',arquivo)

/-- What is printed, and what is left of the file. A `char` is signed. -/
def mostra : List Byte → Except Stop (List Char × List Byte)
  | [] => .error .naoIniciado
  | leitor::arquivo => do
    let nstructs := leitor.toInt
    let (leitor,arquivo) := leChar leitor arquivo
    let ordem := if leitor.sshiftRight 7 ≠ 0 then "little\n".toList else "big\n".toList
    let nvar := (leitor &&& 0x7f).toNat
    let (tipovar,leitor,arquivo) ← leTipos ((nvar+3)/4) 0 leitor arquivo (List.replicate nvar none)
    let (structs,arquivo) ← mostraStructs tipovar nstructs.toNat leitor arquivo
    return (ordem++decimal nstructs++ '\n' :: structs++separador,arquivo)

end PucRio.Compacta
