import RiscvOs.Mem.Frames

/-!
# `_vsnprintf` and `_vprintf`

The formatter of `printf.c`, which `user_print.c` repeats word for word. It reads its format byte by
byte; `format` and `longarg` are its state between two bytes. A `va_list` is a cursor into the words
of the arguments, one word for each of them; it is passed by value, so both passes of `_vprintf`
start at the same argument. A string argument is given by its bytes up to the `NUL`.

`pos` and the cursor are natural numbers; the value returned is cut to 32 bits.
-/

set_option autoImplicit false

namespace RiscvOs

/-- The byte of a character. -/
def ch (c : Char) : Byte := BitVec.ofNat 8 c.toNat

/-- What the arguments are: the words of the `va_list`, and the strings their pointers lead to. -/
structure Args where
  word : ℕ → Word
  str : Word → List Byte
  noNul : ∀ p, 0 ∉ str p

/-- The locals of `_vsnprintf`; `out` is `none` for `NULL`. -/
structure Printer where
  format : Bool
  longarg : Bool
  pos : ℕ
  out : Option (ℕ → Byte)
  vl : ℕ

namespace Printer

variable (n : ℕ) (args : Args)

/-- `if (out && i < n) out[i] = b`. -/
def put (i : ℕ) (b : Byte) (s : Printer) : Printer :=
  { s with out := s.out.map fun buf => if i < n then Function.update buf i b else buf }

/-- `if (out && pos < n) out[pos] = b; pos++`. -/
def emit (b : Byte) (s : Printer) : Printer := { s.put n s.pos b with pos := s.pos + 1 }

/-- `longarg = 0; format = 0`. -/
def done (s : Printer) : Printer := { s with longarg := false, format := false }

/-- The `long` that `longarg ? va_arg(vl, long) : va_arg(vl, int)` yields. -/
def vaArgNum (s : Printer) : Word :=
  if s.longarg then args.word s.vl else ((args.word s.vl).setWidth 32).signExtend 64

/-- The cursor behind an argument. -/
def next (s : Printer) : Printer := { s with vl := s.vl + 1 }

/-! ## The conversions -/

/-- The digit `(num >> (4 * i)) & 0xF`. -/
def hexDigit (num : Word) (i : ℕ) : Byte :=
  let d := num.sshiftRight (4 * i) &&& 0xF
  if d.toNat < 10 then ch '0' + d.setWidth 8 else ch 'a' + d.setWidth 8 - 10

/-- The digits `k - 1, …, 0`. -/
def putHex (num : Word) : ℕ → Printer → Printer
  | 0, s => s
  | k + 1, s => putHex num k (s.emit n (hexDigit num k))

def caseX (s : Printer) : Printer :=
  let num := s.vaArgNum args
  let hexdigits := 2 * (if s.longarg then 8 else 4) - 1
  (putHex n num (hexdigits + 1) s.next).done

/-- `-num` on a `long`: `-2^63` stays what it is. -/
def negLong (num : ℤ) : ℤ := (BitVec.ofInt 64 (-num)).toInt

/-- `for (nn = num; nn /= 10; digits++)` from `digits = 1`. A `long` has at most 19 digits, so the
bound is never reached. -/
def countDigits : ℕ → ℤ → ℕ
  | 0, _ => 1
  | fuel + 1, nn => if nn.tdiv 10 = 0 then 1 else countDigits fuel (nn.tdiv 10) + 1

/-- `'0' + (num % 10)`. -/
def decDigit (num : ℤ) : Byte := ch '0' + BitVec.ofInt 8 (num.tmod 10)

/-- The digits from the last one on, at `pos + i`. -/
def putDigits : ℕ → ℤ → Printer → Printer
  | 0, _, s => s
  | i + 1, num, s => putDigits i (num.tdiv 10) (s.put n (s.pos + i) (decDigit num))

def caseD (s : Printer) : Printer :=
  let num := (s.vaArgNum args).toInt
  let s := s.next
  let (num, s) := if num < 0 then (negLong num, s.emit n (ch '-')) else (num, s)
  let digits := countDigits 20 num
  let s := putDigits n digits num s
  { s with pos := s.pos + digits }.done

/-- `while (*s2)`. -/
def putStr : List Byte → Printer → Printer
  | [], s => s
  | b :: bs, s => putStr bs (s.emit n b)

def caseS (s : Printer) : Printer := (putStr n (args.str (args.word s.vl)) s.next).done

/-- The argument is fetched inside the guard. -/
def caseC (s : Printer) : Printer :=
  let fetched := if s.out.isSome ∧ s.pos < n then
      (s.put n s.pos ((args.word s.vl).setWidth 8)).next else s
  { fetched with pos := fetched.pos + 1 }.done

/-! ## The loop -/

/-- One byte of the format. -/
def step (s : Printer) (c : Byte) : Printer :=
  if s.format then
    if c = ch 'l' then { s with longarg := true }
    else if c = ch 'p' then
      -- falls through to `case 'x'`
      caseX n args (({ s with longarg := true }.emit n (ch '0')).emit n (ch 'x'))
    else if c = ch 'x' then caseX n args s
    else if c = ch 'd' then caseD n args s
    else if c = ch 's' then caseS n args s
    else if c = ch 'c' then caseC n args s
    else s
  else if c = ch '%' then { s with format := true }
  else s.emit n c

/-- The closing `NUL`. -/
def finish (s : Printer) : Printer :=
  { s with out := s.out.map fun buf =>
      if s.pos < n then Function.update buf s.pos 0
      else if n ≠ 0 then Function.update buf (n - 1) 0
      else buf }

end Printer

/-- `_vsnprintf(out, n, s, vl)`, up to the value returned. -/
def vsnprintf (out : Option (ℕ → Byte)) (n : ℕ) (s : List Byte) (args : Args) : Printer :=
  (s.foldl (Printer.step n args) ⟨false, false, 0, out, 0⟩).finish n

/-- The `int` it returns. -/
def Printer.ret (s : Printer) : BitVec 32 := BitVec.ofNat 32 s.pos

/-- `sizeof(out_buf)`. -/
def outBufSize : ℕ := 1000

/-- What `uart_puts` sends of a buffer. -/
def upToNul (buf : ℕ → Byte) : List Byte :=
  ((List.range outBufSize).map buf).takeWhile fun b => b ≠ 0

/-- Measure, check the size, write to the static buffer and send it. The text sent and the value
returned; a rendering that does not fit is fatal. -/
def vprintfTo (outBuf : ℕ → Byte) (s : List Byte) (args : Args) :
    Except Halt (List Byte × BitVec 32) :=
  let res := (vsnprintf none (2 ^ 64 - 1) s args).ret
  let size := ((res + 1).signExtend 64).toNat
  if outBufSize ≤ size then .error .overflow
  else match (vsnprintf (some outBuf) size s args).out with
    | some buf => .ok (upToNul buf, res)
    | none => .error .fault

/-- `_vprintf` sends the text with `uart_puts`. -/
def vprintf (outBuf : ℕ → Byte) (s : List Byte) (args : Args) :
    Except Halt (List Byte × BitVec 32) := vprintfTo outBuf s args

/-- `_user_vprintf` sends it with `__SYS_PRINTF`. -/
def userVprintf (userPrintBuf : ℕ → Byte) (s : List Byte) (args : Args) :
    Except Halt (List Byte × BitVec 32) := vprintfTo userPrintBuf s args

/-! ## The format language -/

/-- The conversions. -/
inductive Conv where
  | d | ld | x | lx | p | s | c
  deriving DecidableEq

/-- A piece of a format: a literal character other than `%`, or a conversion. -/
inductive Piece where
  | lit (b : Byte) (h : b ≠ 0 ∧ b ≠ ch '%')
  | conv (k : Conv)

/-- The letters of a conversion. -/
def Conv.letters : Conv → List Byte
  | .d => [ch 'd']
  | .ld => [ch 'l', ch 'd']
  | .x => [ch 'x']
  | .lx => [ch 'l', ch 'x']
  | .p => [ch 'p']
  | .s => [ch 's']
  | .c => [ch 'c']

/-- How a piece is written in a format. -/
def Piece.spell : Piece → List Byte
  | .lit b _ => [b]
  | .conv k => ch '%' :: k.letters

/-- The format string. -/
def spell (fmt : List Piece) : List Byte := fmt.flatMap Piece.spell

end RiscvOs
