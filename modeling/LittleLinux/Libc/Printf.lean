import LittleLinux.Drivers.Tty
import LittleLinux.Libc.ByteRoutines
import LittleLinux.Libc.Numerals

/-!
# `printf`

`printf` of `libc/src/stdio`. A pass of its loop prints one character, or builds the text of one
conversion in the local array `buffer` and prints that. The format and the strings for `%s` are in
the memory of the caller, and the further parameters are words. `buffer` and `spec.flags` are
objects of their own: behind the 2048 bytes of `buffer` lies the memory `stack`, of which nothing is
known, and a run is not meant to say more once it has stored outside the arrays.

The state of the loop logs the positions of the format that are read, the indices of `spec.flags`
and those of `buffer` that are stored to. Bounds on the scans of strings are a parameter `n`, and any
bound past their lengths will do.
-/

namespace LittleLinux

/-! ### The console -/

/-- The terminal, with the characters that it was given so far. -/
structure Console where
  terminal : Terminal
  out : List UInt8

/-- `putchar`. -/
def Console.putchar (console : Console) (c : UInt8) : Console :=
  ⟨terminalPutC console.terminal c, console.out ++ [c]⟩

/-- The loop of `terminalPutS`. -/
def Console.putS (console : Console) (str : List UInt8) : Console := str.foldl Console.putchar console

/-! ### Format specifiers -/

/-- `struct formatSpecifier`; the flags are what was stored from `flags` on, up to the terminator. -/
structure FormatSpecifier where
  flags : List UInt8
  width : ℤ
  precision : ℤ
  specifier : UInt8

/-- `inGroup`. -/
def inGroup (target : UInt8) : List UInt8 → Bool
  | [] => false
  | c :: group => if target = c then true else inGroup target group

/-- The test of the flag loop. -/
def isFlag (c : UInt8) : Bool := inGroup c [48, 35, 43, 45]

/-- The loops over the digits of the width and of the precision; the `int` wraps. -/
def parseNumber (digits : List UInt8) : ℤ :=
  digits.foldl (fun value c => toI32 (10 * value + (c.toNat - 48))) 0

/-- `parseSpecifier` on the characters after the `%`: the specifier, and the length that it
returns. -/
def parseSpecifier (sp : List UInt8) : FormatSpecifier × ℕ :=
  let flags := sp.takeWhile isFlag
  let sp := sp.dropWhile isFlag
  let width := sp.takeWhile isdigit
  let sp := sp.dropWhile isdigit
  let length := flags.length + width.length
  if sp.headD 0 = 46 then
    let precision := sp.tail.takeWhile isdigit
    let sp := sp.tail.dropWhile isdigit
    (⟨flags, parseNumber width, parseNumber precision, sp.headD 0⟩,
      length + 1 + precision.length + 1)
  else (⟨flags, parseNumber width, 0, sp.headD 0⟩, length + 1)

example : (parseSpecifier [45, 48, 49, 50, 100, 33]).1.width = 12 := by decide

/-! ### The buffer -/

/-- `buffer`, with the indices that were stored to. -/
structure PrintBuffer where
  bytes : ByteMemory
  stores : List ℕ

/-- The indices that `itoa` stores to: from `buff` on, up to the terminator. The digits are reversed
among themselves. -/
def itoaStores (n : ℕ) (value : ℤ) (buff : ℕ) (base : ℤ) (m : ByteMemory) : Option (List ℕ) :=
  if base < 2 ∨ base > 36 then some [buff]
  else if value < 0 ∧ base = 10 then
    (loop (negativePass base) n (value, buff, m)).map fun r => List.range' buff (r.1 + 2 - buff)
  else
    (loop (unsignedPass base.toNat) n (toU32 value, buff, m)).map fun r =>
      List.range' buff (r.1 + 1 - buff)

namespace PrintBuffer

/-- `char buffer[2048] = {0}`. -/
def init (stack : ByteMemory) : PrintBuffer := ⟨stack.putBytes 0 2048 fun _ => 0, []⟩

/-- `buffer[i] = c`. -/
def put (b : PrintBuffer) (i : ℕ) (c : UInt8) : PrintBuffer :=
  ⟨Function.update b.bytes i c, i :: b.stores⟩

/-- `strlen(buffer + i)`. -/
def strlen (n : ℕ) (b : PrintBuffer) (i : ℕ) : ℕ := skipWhile (· != 0) b.bytes n i - i

def memmove (b : PrintBuffer) (dst src size : ℕ) : PrintBuffer :=
  ⟨LittleLinux.memmove b.bytes dst src size, List.range' dst size ++ b.stores⟩

def memset (b : PrintBuffer) (i : ℕ) (c : UInt8) (size : ℕ) : PrintBuffer :=
  ⟨LittleLinux.memset b.bytes i c size, List.range' i size ++ b.stores⟩

def strcpy (b : PrintBuffer) (i : ℕ) (t : List UInt8) : PrintBuffer :=
  ⟨LittleLinux.strcpy b.bytes i t, List.range' i (t.length + 1) ++ b.stores⟩

def itoa (n : ℕ) (b : PrintBuffer) (value : ℤ) (buff : ℕ) (base : ℤ) : Option PrintBuffer :=
  (LittleLinux.itoa n value buff base b.bytes).bind fun m =>
    (itoaStores n value buff base b.bytes).map fun stores => ⟨m, stores ++ b.stores⟩

/-- `insertChars`. -/
def insertChars (n : ℕ) (b : PrintBuffer) (start : ℕ) (c : UInt8) (num : ℕ) : PrintBuffer :=
  (b.memmove (start + num) start (b.strlen n start + 1)).memset start c num

end PrintBuffer

/-! ### The loop -/

/-- The padding with zeros of `%x` and `%d`, from `buff` on. -/
def zeroPad (n : ℕ) (spec : FormatSpecifier) (buff : ℕ) (b : PrintBuffer) : PrintBuffer :=
  if !inGroup 45 spec.flags && inGroup 48 spec.flags then
    let pad := toI32 (spec.width - b.strlen n 0)
    if pad ≥ 0 then b.insertChars n buff 48 pad.toNat else b
  else b

/-- The padding with spaces at the end. -/
def spacePad (n : ℕ) (spec : FormatSpecifier) (b : PrintBuffer) : PrintBuffer :=
  let len := b.strlen n 0
  let pad := toI32 (spec.width - len)
  if pad ≥ 0 then
    if inGroup 45 spec.flags then (b.memset len 32 pad.toNat).put (len + pad.toNat) 0
    else b.insertChars n 0 32 pad.toNat
  else b

/-- The `switch`; `arg` is the parameter that the conversion takes, if it takes one, and `m` the
memory in which a `%s` parameter points. -/
def convert (n : ℕ) (m : ByteMemory) (arg : Int32) (spec : FormatSpecifier) (b : PrintBuffer) :
    Option PrintBuffer :=
  if spec.specifier = 37 then some ((b.put 0 37).put 1 0)
  else if spec.specifier = 99 then some ((b.put 0 arg.toInt8.toUInt8).put 1 0)
  else if spec.specifier = 120 then
    let (b, buff) := if inGroup 35 spec.flags then (b.strcpy 0 [48, 120], 2) else (b, 0)
    (b.itoa n arg.toInt buff 16).map (zeroPad n spec buff)
  else if spec.specifier = 115 then some (b.strcpy 0 (stringAt m arg.toUInt32.toNat n).chars)
  else if spec.specifier = 105 ∨ spec.specifier = 100 then
    let (b, buff) := if inGroup 43 spec.flags && arg.toInt ≥ 0 then ((b.put 0 43).put 1 0, 1)
      else (b, 0)
    (b.itoa n arg.toInt buff 10).map (zeroPad n spec (if arg.toInt < 0 then buff + 1 else buff))
  else some (((b.put 0 37).put 1 spec.specifier).put 2 0)

/-- How many parameters the conversion takes. -/
def FormatSpecifier.arity (spec : FormatSpecifier) : ℕ :=
  if spec.specifier ∈ [99, 120, 115, 105, 100] then 1 else 0

/-- The state of the loop: `format`, the index of the next parameter, `amount`, the console, and
what was read and stored to. -/
structure PrintfState where
  format : ℕ
  parameter : ℕ
  amount : ℤ
  console : Console
  reads : List ℕ
  flagStores : List ℕ
  bufferStores : List ℕ

/-- A pass of the loop. -/
def printfPass (n : ℕ) (m : ByteMemory) (parameters : ℕ → Int32) (stack : ByteMemory)
    (s : PrintfState) : Pass PrintfState PrintfState :=
  match (stringAt m s.format n).chars with
  | [] => .leave { s with reads := s.format :: s.reads }
  | c :: sp =>
    if c = 37 then
      let (spec, length) := parseSpecifier sp
      match convert n m (parameters s.parameter) spec (.init stack) with
      | none => .next s -- a loop of `itoa` does not end
      | some b =>
        let b := spacePad n spec b
        let text := (stringAt b.bytes 0 n).chars
        .next
          { format := s.format + 1 + length
            parameter := s.parameter + spec.arity
            amount := toI32 (s.amount + text.length)
            console := s.console.putS text
            reads := List.range' s.format (length + 1) ++ s.reads
            flagStores := List.range (spec.flags.length + 1) ++ s.flagStores
            bufferStores := b.stores ++ s.bufferStores }
    else
      .next
        { s with
          format := s.format + 1
          amount := toI32 (s.amount + 1)
          console := s.console.putchar c
          reads := s.format :: s.reads }

/-- The state in which the loop starts. -/
def printfStart (format : ℕ) (console : Console) : PrintfState := ⟨format, 0, 0, console, [], [], []⟩

/-- `printf`: the amount that it returns, and the console. -/
def printf (n : ℕ) (m : ByteMemory) (parameters : ℕ → Int32) (stack : ByteMemory) (format : ℕ)
    (console : Console) : Option (ℤ × Console) :=
  (loop (printfPass n m parameters stack) n (printfStart format console)).map fun s =>
    (s.amount, s.console)

end LittleLinux
