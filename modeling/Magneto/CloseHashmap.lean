import Magneto.Lib.Probe
import Mathlib.Data.Finset.Range
import Mathlib.Data.Finset.Card
import Mathlib.Logic.Function.Basic

/-!
# The closed hash map

`CloseHashmap` keeps its items in one array. A key is looked for at its home
slot and then at steps of a prime that the home slot chooses; an erased item
keeps its key and is passed over, except that the home slot is also taken when
its erased item has the key looked for. Two keys are equal when `key_equal_`
says so, and equal keys have one hash.
-/

namespace Magneto

/-- An element of `items_`, by its flag 0, 1 or -1. -/
inductive HashItem (Key Val : Type*)
  | empty
  | used (key : Key) (val : Val)
  | erased (key : Key) (val : Val)
  deriving DecidableEq, Repr

namespace HashItem

variable {Key Val : Type*}

def key : HashItem Key Val → Option Key
  | empty => none
  | used key _ => some key
  | erased key _ => some key

def val? : HashItem Key Val → Option Val
  | used _ val => some val
  | _ => none

def pair? : HashItem Key Val → Option (Key × Val)
  | used key val => some (key, val)
  | _ => none

def atHome [DecidableEq Key] (key : Key) : HashItem Key Val → Bool
  | empty => true
  | used k _ => key = k
  | erased k _ => key = k

def atStep [DecidableEq Key] (key : Key) : HashItem Key Val → Bool
  | empty => true
  | used k _ => key = k
  | erased _ _ => false

end HashItem

structure CloseHashmap (Key Val : Type*) where
  sizeArray : ℕ
  hash : Key → ℕ
  items : ℕ → HashItem Key Val
  numElm : ℕ

namespace CloseHashmap

def kNumPrimes : ℕ := 28

def kPrimes : List ℕ :=
  [53, 97, 193, 389, 769, 1543, 3079, 6151, 12289, 24593, 49157, 98317, 196613, 393241, 786433,
    1572869, 3145739, 6291469, 12582917, 25165843, 50331653, 100663319, 201326611, 402653189,
    805306457, 1610612741, 3221225473, 4294967291]

variable {Key Val : Type*}

def init (sizeArray : ℕ) (hash : Key → ℕ) : Option (CloseHashmap Key Val) :=
  if kPrimes.any (fun p => sizeArray % p = 0) then none
  else some ⟨sizeArray, hash, fun _ => .empty, 0⟩

def home (m : CloseHashmap Key Val) (key : Key) : ℕ := m.hash key % m.sizeArray

def step (m : CloseHashmap Key Val) (key : Key) : ℕ := kPrimes.getD (m.home key % kNumPrimes) 0

def setItem (m : CloseHashmap Key Val) (pos : ℕ) (item : HashItem Key Val) (numElm : ℕ) :
    CloseHashmap Key Val :=
  { m with items := Function.update m.items pos item, numElm := numElm }

def entries (m : CloseHashmap Key Val) : List (Key × Val) :=
  (List.range m.sizeArray).filterMap fun pos => (m.items pos).pair?

variable [DecidableEq Key]

def probe (m : CloseHashmap Key Val) (key : Key) (step : ℕ) : ℕ → ℕ → Option ℕ
  | 0, _ => none
  | n + 1, pos =>
    let pos := (pos + step) % m.sizeArray
    if (m.items pos).atStep key then some pos else m.probe key step n pos

def getItem (m : CloseHashmap Key Val) (key : Key) : Option ℕ :=
  if (m.items (m.home key)).atHome key then some (m.home key)
  else m.probe key (m.step key) (m.sizeArray - 1) (m.home key)

def get (m : CloseHashmap Key Val) (key : Key) : Option Val :=
  (m.getItem key).bind fun pos => (m.items pos).val?

def insert (m : CloseHashmap Key Val) (key : Key) (val : Val) : Bool × CloseHashmap Key Val :=
  if m.sizeArray = m.numElm then (false, m)
  else match m.getItem key with
  | none => (false, m)
  | some pos => match m.items pos with
    | .used _ _ => (false, m)
    | _ => (true, m.setItem pos (.used key val) (m.numElm + 1))

def erase (m : CloseHashmap Key Val) (key : Key) : Bool × CloseHashmap Key Val :=
  match m.getItem key with
  | none => (false, m)
  | some pos => match m.items pos with
    | .used k val =>
      if key = k then (true, m.setItem pos (.erased k val) (m.numElm - 1)) else (false, m)
    | _ => (false, m)

/-- A write through the pointer that `Get` returns. -/
def modify (m : CloseHashmap Key Val) (key : Key) (f : Val → Val) : CloseHashmap Key Val :=
  match m.getItem key with
  | none => m
  | some pos => match m.items pos with
    | .used k val => m.setItem pos (.used k (f val)) m.numElm
    | _ => m

/-- What a loop that erases the entries whose key is not to be kept does at a slot; `drop` is
the rest of its body. -/
def sweepSlot {σ : Type*} (keep : Key → Bool) (drop : σ → Key × Val → σ)
    (s : σ × CloseHashmap Key Val) (pos : ℕ) : σ × CloseHashmap Key Val :=
  match s.2.items pos with
  | .used k val => if keep k then s else (drop s.1 (k, val), (s.2.erase k).2)
  | _ => s

def sweep {σ : Type*} (m : CloseHashmap Key Val) (keep : Key → Bool)
    (drop : σ → Key × Val → σ) (s : σ) : σ × CloseHashmap Key Val :=
  (List.range m.sizeArray).foldl (sweepSlot keep drop) (s, m)

end CloseHashmap

end Magneto
