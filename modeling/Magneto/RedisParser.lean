import Magneto.Lib.Word

/-!
# The Redis parser

`RedisParser` over byte strings, with the C library functions it calls. Output
parameters are threaded: `out` is appended to also on the paths that end without
a reply, and `size_reply` is set only where the source sets it.
-/

namespace Magneto.RedisParser

def kSep : UInt8 := 1
def crlf : List UInt8 := [13, 10]

def findAt (pat : List UInt8) : List UInt8 → ℕ → Option ℕ
  | [], i => if pat = [] then some i else none
  | b :: bs, i => if pat.isPrefixOf (b :: bs) then some i else findAt pat bs (i + 1)

def find (pat s : List UInt8) (pos : ℕ) : Option ℕ :=
  if pos ≤ s.length then findAt pat (s.drop pos) pos else none

def isSpace (b : UInt8) : Bool := b = 32 ∨ (9 ≤ b ∧ b ≤ 13)
def isDigit (b : UInt8) : Bool := 48 ≤ b ∧ b ≤ 57

def longMax : ℤ := 2 ^ 63 - 1
def longMin : ℤ := -2 ^ 63

def digitsValue (ds : List UInt8) : ℕ := ds.foldl (fun n d => 10 * n + (d.toNat - 48)) 0

/-- `strtol` in base 10: the value and the number of bytes it consumed. -/
def strtol (s : List UInt8) : ℤ × ℕ :=
  let spaces := s.takeWhile isSpace
  let rest := s.drop spaces.length
  let negative := rest.head? = some 45
  let sign := if negative ∨ rest.head? = some 43 then 1 else 0
  let ds := (rest.drop sign).takeWhile isDigit
  if ds = [] then (0, 0)
  else
    let n : ℤ := digitsValue ds
    (if negative then max longMin (-n) else min longMax n, spaces.length + sign + ds.length)

def decimal (n : ℕ) : List UInt8 := (Nat.toDigits 10 n).map fun c => UInt8.ofNat c.toNat

def ascii (s : String) : List UInt8 := s.toList.map fun c => UInt8.ofNat c.toNat

/-- The result of a parser call; `size` is what it stored in its size parameter. -/
structure Parsed where
  ret : ℤ
  size : Option ℕ
  out : List UInt8
  deriving DecidableEq, Repr

def parseReplySeg (reply : List UInt8) (start : ℕ) (out : List UInt8) : Parsed :=
  match find crlf reply start with
  | none => ⟨1, none, out⟩
  | some idxCr =>
    let n := strtol (reply.drop (start + 1))
    if n.1 = -1 then ⟨0, some (idxCr + 2 - start), out ++ ascii "__null"⟩
    else if n.1 = longMax ∨ n.1 = longMin ∨ start + 1 + n.2 = 3 ∨ n.1 ≤ 0 then ⟨-1, none, out⟩
    else
      match find crlf reply (idxCr + 1) with
      | none => ⟨1, none, out⟩
      | some idxSecondCr =>
        if Word.narrow ((idxSecondCr : ℤ) - idxCr - 2) ≠ n.1 then ⟨-1, none, out⟩
        else ⟨0, some (idxSecondCr + 2 - start),
          out ++ (reply.drop (idxCr + 2)).take n.1.toNat⟩

def parseAnswers (reply : List UInt8) : ℕ → ℕ → ℕ → List UInt8 → Parsed
  | 0, idxDollar, sizeReplySeg, out => ⟨0, some (idxDollar + sizeReplySeg - 1), out⟩
  | k + 1, idxDollar, sizeReplySeg, out =>
    match find [36] reply idxDollar with
    | none => ⟨1, none, out⟩
    | some idxDollar =>
      let seg := parseReplySeg reply idxDollar out
      if seg.ret ≠ 0 then ⟨seg.ret, none, seg.out⟩
      else parseAnswers reply k (idxDollar + 1) (seg.size.getD sizeReplySeg)
        (if k = 0 then seg.out else seg.out ++ [kSep])

/-- The rounds of the loop over the answers. Its counter is an `int` and never reaches a number
of answers above its range: then only a missing `$` or a bad answer ends the loop. -/
def rounds (reply : List UInt8) (numAnswer : ℤ) : ℕ :=
  if numAnswer < 2 ^ 31 then numAnswer.toNat else reply.length + 1

def parseMultiBulk (reply : List UInt8) (idxCr : ℕ) (out : List UInt8) : Parsed :=
  let n := strtol (reply.drop 1)
  if n.1 = longMax ∨ n.1 = longMin ∨ n.2 = 0 then ⟨-1, none, out⟩
  else if n.1 = -1 then ⟨0, some (idxCr + 2), out ++ ascii "0"⟩
  else if n.1 ≤ 0 then ⟨-1, none, out⟩
  else parseAnswers reply (rounds reply n.1) 0 0 (out ++ decimal n.1.toNat ++ [kSep])

/-- `substr` with a count that is stored in a `size_t`: a negative one exceeds any string. -/
def substr (s : List UInt8) (pos : ℕ) (count : ℤ) : List UInt8 :=
  if count < 0 then s.drop pos else (s.drop pos).take count.toNat

def parseBulk (reply : List UInt8) (idxCr : ℕ) (out : List UInt8) : Parsed :=
  let n := strtol (reply.drop 1)
  if n.1 = longMax ∨ n.1 = longMin ∨ n.2 = 0 then ⟨-1, none, out⟩
  else if n.1 = -1 then ⟨0, some (idxCr + 2), out ++ ascii "0"⟩
  else
    match find crlf reply (idxCr + 1) with
    | none => ⟨1, none, out⟩
    | some idxSecondCr =>
      if Word.narrow ((idxSecondCr : ℤ) - idxCr) ≠ 2 + n.1 then ⟨-1, none, out⟩
      else ⟨0, some (idxSecondCr + 2),
        out ++ ascii "1" ++ [kSep] ++ substr reply (idxCr + 2) n.1⟩

/-- `ParseReply`; the second component is `is_pong`. -/
def parseReply (reply out : List UInt8) : Parsed × Bool :=
  match reply with
  | [] => (⟨-1, none, out⟩, false)
  | b :: _ =>
    match find crlf reply 0 with
    | none => (⟨1, none, out⟩, false)
    | some idxCr =>
      if b = 42 then (parseMultiBulk reply idxCr out, false)
      else if b = 36 then (parseBulk reply idxCr out, false)
      else if b = 58 then
        (⟨0, some (idxCr + 2), out ++ ascii "1" ++ [kSep] ++ (reply.drop 1).take (idxCr - 1)⟩,
          false)
      else if b = 43 then
        (⟨0, some (idxCr + 2), out ++ ascii "0"⟩,
          5 ≤ reply.length ∧ (find (ascii "PONG") reply 0).isSome)
      else if b = 45 then (⟨0, some (idxCr + 2), out ++ ascii "__null"⟩, false)
      else (⟨-1, none, out⟩, false)

def encodeSeg (len : ℕ) (seg : List UInt8) : List UInt8 :=
  ascii "$" ++ decimal len ++ crlf ++ seg.take len ++ crlf

/-- The loop of `ParseCmd` on what follows `follower`; lengths and the number of
segments are 32-bit. A round consumes a byte or is the last. -/
def parseCmdLoop : ℕ → List UInt8 → ℕ → List UInt8 → Option (ℕ × List UInt8)
  | 0, _, numSegs, result => some (numSegs, result)
  | k + 1, rest, numSegs, result =>
    match rest.findIdx? (· = kSep) with
    | some 0 => none
    | some n =>
      let lenSeg := n % 2 ^ 32
      if lenSeg = 0 then some (numSegs, result)
      else parseCmdLoop k (rest.drop (n + 1)) ((numSegs + 1) % 2 ^ 32)
        (result ++ encodeSeg lenSeg rest)
    | none =>
      let lenSeg := rest.length % 2 ^ 32
      if lenSeg = 0 then some (numSegs, result)
      else some ((numSegs + 1) % 2 ^ 32, result ++ encodeSeg lenSeg rest)

def parseCmd (s : List UInt8) : Option (List UInt8) :=
  if s = [] then none
  else (parseCmdLoop (s.length + 1) s 0 crlf).map fun r => ascii "*" ++ decimal r.1 ++ r.2

example : parseCmd (ascii "get\x01k") = some (ascii "*2\r\n$3\r\nget\r\n$1\r\nk\r\n") := by decide

example : (parseReply (ascii "*2\r\n$1\r\na\r\n$-1\r\n") []).1 =
    ⟨0, some 16, ascii "2\x01a\x01__null"⟩ := by decide

end Magneto.RedisParser
