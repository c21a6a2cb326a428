import PucRio.Lib.Memory32
import PucRio.Lib.Scanf

/-! `geracod.c`: the bytes of the instructions, the addresses patched at each `end`, and the loop
that reads the file. -/
namespace PucRio.Sb

/-- How `geracod` ends without code: with a message and `exit(-1)`, never, or in a step whose effect
C leaves open (an index beyond an array, a variable that `fscanf` has not set). -/
inductive Parada
  | erro (mensagem : String)
  | semRetorno
  | indefinido
  deriving DecidableEq, Repr

def testaVar (linhas : ℕ) (type : Char) (var : ℤ) : Except Parada Unit :=
  if type = 'p' then
    if var > 4 then
      .error (.erro s!"Erro (linha {linhas}): so sao permitidos 5 parametros em SB (p0~p4)\n")
    else .ok ()
  else if type = 'v' then
    if var > 9 then
      .error (.erro s!"Erro (linha {linhas}): so sao permitidos 10 variaveis locais em SB (v0~v9)\n")
    else .ok ()
  else if type ≠ '$' then
    .error (.erro s!"Erro (linha {linhas}): tipo de variavel invalido\n")
  else .ok ()

/-- The displacement from `%ebp`, cut down to an `unsigned char`. -/
def deslocamento (type : Char) (var : ℤ) : Byte :=
  if type = 'p' then BitVec.ofInt 8 (8+4*var) else BitVec.ofInt 8 (-4*var-4)

/-- `reg` is `c` for `%ecx` and `d` for `%edx`. -/
def movlMemToReg (linhas : ℕ) (type : Char) (var : ℤ) (reg : Char) : Except Parada (List Byte) :=
  if type = 'p' ∨ type = 'v' then
    .ok [0x8b,if reg = 'c' then 0x4d else 0x55,deslocamento type var]
  else if type = '$' then
    .ok ((if reg = 'c' then 0xb9 else 0xba)::le32 (BitVec.ofInt 32 var))
  else .error (.erro s!"Erro (linha {linhas}): tipo de variavel nao reconhecido\n")

def movlFromReg (type : Char) (var : ℤ) : List Byte := [0x89,0x55,deslocamento type var]

/-- `op %ecx %edx`. -/
def opEcxEdx (linhas : ℕ) (op : Char) : Except Parada (List Byte) :=
  if op = '+' then .ok [0x01,0xca]
  else if op = '-' then .ok [0x29,0xca]
  else if op = '*' then .ok [0x0f,0xaf,0xd1]
  else .error (.erro s!"Erro (linha {linhas}): operacao invalida\n")

/-- `varc0 = varc1 op varc2`. A subtraction has its operands the other way round. -/
def assign (linhas : ℕ) (varc0Type : Char) (varc0 : ℤ) (varc1Type : Char) (varc1 : ℤ)
    (varc2Type : Char) (varc2 : ℤ) (op : Char) : Except Parada (List Byte) := do
  testaVar linhas varc0Type varc0
  testaVar linhas varc1Type varc1
  testaVar linhas varc2Type varc2
  if varc0Type = '$' then
    .error (.erro s!"Erro (linha {linhas}): nao e possivel atribuir valor a uma constante\n")
  let mov1 ← movlMemToReg linhas varc1Type varc1 (if op = '-' then 'd' else 'c')
  let mov2 ← movlMemToReg linhas varc2Type varc2 (if op = '-' then 'c' else 'd')
  let ins ← opEcxEdx linhas op
  return mov1 ++ mov2 ++ ins ++ movlFromReg varc0Type varc0

/-- `cmpl $0, var` and `je`, whose displacement is filled in later. -/
def whileFunc (linhas : ℕ) (type : Char) (var : ℤ) : Except Parada (List Byte) := do
  testaVar linhas type var
  if type = 'p' ∨ type = 'v' then
    return [0x83,0x7d,deslocamento type var,0x00,0x0f,0x84,0xff,0xff,0xff,0xff]
  else .error (.erro s!"Erro (linha {linhas}): constantes nao sao permitidas em um while\n")

/-- `memcpy` of `bs` over the bytes from position `i` on. -/
def sobrescreve (mcodes : List Byte) (i : ℕ) (bs : List Byte) : List Byte :=
  mcodes.take i ++ bs ++ mcodes.drop (i+bs.length)

/-- The `jmp` back to the `cmpl`, and the displacement of the `je` behind it. -/
def endFunc (execstack : List Byte) (enderecoEnd enderecoCmplWhile : ℕ) : List Byte :=
  sobrescreve execstack (enderecoCmplWhile+6)
      (le32 (BitVec.ofInt 32 ((enderecoEnd+4 : ℤ)-(enderecoCmplWhile+9)))) ++
    0xe9::le32 (BitVec.ofInt 32 ((enderecoCmplWhile : ℤ)-(enderecoEnd+5)))

def prologo : List Byte := [0x55,0x89,0xe5,0x83,0xec,0x28]

def finalizacao : List Byte := [0x8b,0x45,0xfc,0x89,0xec,0x5d,0xc3]

/-- The variables of `geracod`: `bytes` is the length of `mcodes`, and `nwhiles` that of the list of
addresses, innermost loop first. -/
structure Estado where
  mcodes : List Byte
  enderecoCmplWhiles : List ℕ
  linhas : ℕ
  temp : Char
  deriving DecidableEq, Repr

/-- Behind the `50*16` bytes of `mcodes` nothing may be written. -/
def Estado.escreve (e : Estado) (bs : List Byte) : Except Parada Estado :=
  if e.mcodes.length+bs.length ≤ 50*16 then .ok { e with mcodes := e.mcodes ++ bs }
  else .error .indefinido

/-- An `fscanf` that stops early leaves variables as they were, or unset. -/
def lido {α : Type} : Option α → Except Parada α
  | some a => .ok a
  | none => .error .indefinido

/-- `"%d = %c%d %c %c%d"`. -/
def leAssign (cs : List Char) : Option ((ℤ × Char × ℤ × Char × Char × ℤ) × List Char) := do
  let (var0,cs) ← Scanf.int cs
  let cs ← Scanf.literal '=' (Scanf.skipSpace cs)
  let (type1,cs) ← Scanf.char (Scanf.skipSpace cs)
  let (var1,cs) ← Scanf.int cs
  let (op,cs) ← Scanf.char (Scanf.skipSpace cs)
  let (type2,cs) ← Scanf.char (Scanf.skipSpace cs)
  let (var2,cs) ← Scanf.int cs
  return ((var0,type1,var1,op,type2,var2),cs)

/-- `"hile %c%d"`. -/
def leWhile (cs : List Char) : Option ((Char × ℤ) × List Char) := do
  let cs ← Scanf.literal 'h' cs
  let cs ← Scanf.literal 'i' cs
  let cs ← Scanf.literal 'l' cs
  let cs ← Scanf.literal 'e' cs
  let (type,cs) ← Scanf.char (Scanf.skipSpace cs)
  let (var,cs) ← Scanf.int cs
  return ((type,var),cs)

namespace Estado

/-- An assignment, `vartype[0]` having been read. -/
def linhaAssign (e : Estado) (type0 : Char) :
    ℤ × Char × ℤ × Char × Char × ℤ → Except Parada Estado
  | (var0,type1,var1,op,type2,var2) => do
    let func ← assign e.linhas type0 var0 type1 var1 type2 var2 op
    e.escreve func

/-- A `while`, whose address goes into the table of 25. -/
def linhaWhile (e : Estado) : Char × ℤ → Except Parada Estado
  | (type,var) => do
    if 25 ≤ e.enderecoCmplWhiles.length then .error .indefinido
    let func ← whileFunc e.linhas type var
    let e' ← e.escreve func
    return { e' with enderecoCmplWhiles := e.mcodes.length::e.enderecoCmplWhiles }

def linhaEnd (e : Estado) : Except Parada Estado :=
  match e.enderecoCmplWhiles with
  | [] => .error
      (.erro s!"Erro (linha {e.linhas}): nao ha um while aberto para o end declarado.\n")
  | enderecoCmplWhile::enderecos =>
    if e.mcodes.length+5 ≤ 50*16 then
      .ok { e with
        mcodes := endFunc e.mcodes e.mcodes.length enderecoCmplWhile
        enderecoCmplWhiles := enderecos }
    else .error .indefinido

/-- A comment, its first slash having been read. At the end of the file `temp` keeps its value. -/
def comentario (e : Estado) (cs : List Char) : Except Parada (List Char × Estado) :=
  let temp := cs.head?.getD e.temp
  if temp ≠ '/' then
    .error (.erro (s!"Erro de leitura (linha {e.linhas}): caractere invalido encontrado ('{temp}')\n"
      ++ "Dica: comentarios se iniciam com // e nao com /\n"))
  else
    match cs.tail.dropWhile (· ≠ '\n') with
    | [] => .error .semRetorno
    | _::cs => .ok (cs,{ e with linhas := e.linhas+1, temp := '\n' })

/-- One turn of the loop, `vartype0` having been read. -/
def turno (e : Estado) (vartype0 : Char) (cs : List Char) : Except Parada (List Char × Estado) :=
  if vartype0 = 'v' ∨ vartype0 = 'p' then do
    let (campos,cs) ← lido (leAssign cs)
    let e ← e.linhaAssign vartype0 campos
    return (cs,e)
  else if vartype0 = 'w' then do
    let (campos,cs) ← lido (leWhile cs)
    let e ← e.linhaWhile campos
    return (cs,e)
  else if vartype0 = 'e' then do
    let e ← e.linhaEnd
    return (cs.drop 2,e)
  else if vartype0 = '/' then e.comentario cs
  else if vartype0 = '\n' then .ok (cs,{ e with linhas := e.linhas+1 })
  else if vartype0 = '\t' ∨ vartype0 = ' ' then .ok (cs,e)
  else .error (.erro
    s!"Erro de leitura (linha {e.linhas}): caractere invalido encontrado ('{vartype0}')\n")

def termina (e : Estado) : Except Parada (List Byte) :=
  if e.enderecoCmplWhiles ≠ [] then
    .error (.erro "Erro: nem todos os whiles foram fechados.\n")
  else if 50 < e.linhas then .error (.erro "Erro: maximo de linhas atingido.\n")
  else if 50*16 < e.mcodes.length+finalizacao.length then .error .indefinido
  else .ok (e.mcodes ++ finalizacao)

/-- The loop over the file. Each turn reads a character, so that as many turns as there are
characters, and one, are enough. -/
def laco : ℕ → List Char → Estado → Except Parada (List Byte)
  | 0,_,_ => .error .semRetorno
  | _+1,[],e => e.termina
  | n+1,vartype0::cs,e =>
    if vartype0 = 'r' ∨ 50 < e.linhas then e.termina
    else if 50*16 ≤ e.mcodes.length then
      .error (.erro "Erro: Numero maximo de instrucoes excedido.\n")
    else do
      let (cs,e) ← e.turno vartype0 cs
      laco n cs e

end Estado

/-- The code for the text of the file. -/
def geracod (f : List Char) : Except Parada (List Byte) :=
  Estado.laco (f.length+1) f ⟨prologo,[],1,' '⟩

end PucRio.Sb
