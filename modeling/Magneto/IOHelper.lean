import Magneto.Lib.Word

/-!
# Non-blocking socket calls

`IOHelper` comes as a header and a compiled library. What a connection delivers is
a list of arrivals. A read takes bytes of the first arrival, at most as many as
asked for and never more than an `int` can report, and leaves the others in the
socket; it reports 0 when nothing has arrived and a negative value when the
connection failed.

What a connection takes is a list of answers, one for each `writev` or `write` of
a call; it ends where the socket takes no more for now. `WriteVecNonBlock` drops
the slots that went out from the front of its vector. When a `writev` ended inside
a slot, it then cuts the bytes that went out from the slot at the old place of this
one, so that a slot other than the first is sent again from its first byte.
-/

namespace Magneto.IOHelper

inductive Arrival
  | data (bs : List UInt8)
  | fail (code : ℕ)
  deriving DecidableEq, Repr

abbrev SockIn := List Arrival

structure RecvResult where
  ret : ℤ
  got : List UInt8
  rest : SockIn

def readNonBlock (count : ℕ) : SockIn → RecvResult
  | [] => ⟨0, [], []⟩
  | .fail code :: rest => ⟨-(code + 1), [], rest⟩
  | .data bs :: rest =>
    let n := min count Word.intMax
    ⟨(bs.take n).length, bs.take n, if bs.length ≤ n then rest else .data (bs.drop n) :: rest⟩

inductive Answer
  | took (n : ℕ)
  | fail
  deriving DecidableEq, Repr

abbrev SockOut := List Answer

def advance (n : ℕ) : List (List UInt8) → List (List UInt8)
  | [] => []
  | iov :: iovs => if iov.length ≤ n then advance (n - iov.length) iovs else iov.drop n :: iovs

/-- `refused`: the vector is left with a length below zero, that is with a `size_t` for which
every `writev` fails. -/
structure SendResult where
  ret : ℤ
  put : List UInt8
  iovs : List (List UInt8)
  refused : Bool

/-- The slot in which the first `n` bytes of a vector end, and how many of them are its own. -/
def slotAt (n : ℕ) : List (List UInt8) → ℕ × ℕ
  | [] => (0, n)
  | iov :: iovs =>
    if iov.length ≤ n then
      let p := slotAt (n - iov.length) iovs
      (p.1 + 1, p.2)
    else (0, n)

/-- What `WriteVecNonBlock` makes of its vector when `n` bytes went out. -/
def shift (n : ℕ) (iovs : List (List UInt8)) : Option (List (List UInt8)) :=
  let p := slotAt n iovs
  let left := iovs.drop p.1
  match left[p.1]? with
  | none => some left
  | some iov => if p.2 ≤ iov.length then some (left.set p.1 (iov.drop p.2)) else none

/-- The loop of `writev`, with what becomes of the vector when some bytes of it went out. -/
def writeVec (next : ℕ → List (List UInt8) → Option (List (List UInt8))) (put : List UInt8)
    (iovs : List (List UInt8)) : SockOut → SendResult
  | [] => ⟨Word.narrow put.length, put, iovs, false⟩
  | .fail :: _ => ⟨-2, put, iovs, false⟩
  | .took n :: out =>
    let k := min n iovs.flatten.length
    if k = 0 then ⟨Word.narrow put.length, put, iovs, false⟩
    else
      let put := put ++ iovs.flatten.take k
      match next k iovs with
      | none => ⟨-2, put, iovs, true⟩
      | some [] => ⟨Word.narrow put.length, put, [], false⟩
      | some (iov :: iovs) => writeVec next put (iov :: iovs) out

def writeVecNonBlock (iovs : List (List UInt8)) (out : SockOut) : SendResult :=
  writeVec shift [] iovs out

/-- The call that the users of `WriteVecNonBlock` count on. -/
def writeVecInOrder (iovs : List (List UInt8)) (out : SockOut) : SendResult :=
  writeVec (fun n iovs => some (advance n iovs)) [] iovs out

def writeBuf (put bs : List UInt8) : SockOut → ℤ × List UInt8
  | [] => (Word.narrow put.length, put)
  | .fail :: _ => (-2, put)
  | .took n :: out =>
    let k := min n bs.length
    if k = 0 then (Word.narrow put.length, put)
    else if bs.length = k then (Word.narrow (put ++ bs).length, put ++ bs)
    else writeBuf (put ++ bs.take k) (bs.drop k) out

def writeNonBlock (bs : List UInt8) (out : SockOut) : ℤ × List UInt8 := writeBuf [] bs out

theorem flatten_advance (n : ℕ) (iovs : List (List UInt8)) :
    (advance n iovs).flatten = iovs.flatten.drop n := by
  induction iovs generalizing n with
  | nil => simp [advance]
  | cons iov iovs ih =>
    simp only [advance, List.flatten_cons]
    split_ifs with h
    · rw [ih, List.drop_append, List.drop_eq_nil_of_le h, List.nil_append]
    · rw [List.flatten_cons, List.drop_append_of_le_length (by omega)]

theorem advance_length_le (n : ℕ) (iovs : List (List UInt8)) :
    (advance n iovs).length ≤ iovs.length := by
  induction iovs generalizing n with
  | nil => simp [advance]
  | cons iov iovs ih =>
    simp only [advance]
    split_ifs
    · exact (ih _).trans (Nat.le_succ _)
    · simp

theorem readNonBlock_got_length (count : ℕ) (s : SockIn) :
    (readNonBlock count s).got.length ≤ count := by
  match s with
  | [] => simp [readNonBlock]
  | .fail code :: rest => simp [readNonBlock]
  | .data bs :: rest =>
    simp only [readNonBlock, List.length_take]
    omega

theorem readNonBlock_ret_pos {count : ℕ} {s : SockIn} (h : 0 < (readNonBlock count s).ret) :
    (readNonBlock count s).ret = (readNonBlock count s).got.length := by
  match s with
  | [] => simp [readNonBlock] at h
  | .fail code :: rest => simp only [readNonBlock] at h; omega
  | .data bs :: rest => rfl

theorem readNonBlock_data (count : ℕ) (found : List (List UInt8)) :
    ∃ rest : List (List UInt8), (readNonBlock count (found.map .data)).rest = rest.map .data ∧
      (readNonBlock count (found.map .data)).got ++ rest.flatten = found.flatten ∧
      (readNonBlock count (found.map .data)).ret =
        (readNonBlock count (found.map .data)).got.length := by
  cases found with
  | nil => exact ⟨[], rfl, rfl, rfl⟩
  | cons bs found =>
    simp only [List.map_cons, readNonBlock, List.flatten_cons]
    split_ifs with hle
    · exact ⟨found, rfl, by rw [List.take_of_length_le hle], trivial⟩
    · refine ⟨bs.drop (min count Word.intMax) :: found, rfl, ?_, trivial⟩
      rw [List.flatten_cons, ← List.append_assoc, List.take_append_drop]

theorem readNonBlock_got_ne_nil {count : ℕ} (hc : 0 < count) {found : List (List UInt8)}
    (h : found.head?.getD [] ≠ []) : (readNonBlock count (found.map .data)).got ≠ [] := by
  have hmin : min count Word.intMax ≠ 0 := by
    simp only [Word.intMax]
    omega
  cases found with
  | nil => exact absurd rfl h
  | cons bs found =>
    have hbs : bs ≠ [] := h
    simp [readNonBlock, hmin, hbs]

end Magneto.IOHelper
