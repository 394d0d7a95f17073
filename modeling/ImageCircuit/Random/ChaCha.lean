import ImageCircuit.Random.Source

/-!
# The ChaCha8 source

The stream of 32-bit words of the ChaCha cipher with four double rounds, as a source of draws.

* `ChaCha.ofSeed`: the source of a 64-bit seed
* `ChaCha.next`, `ChaCha.nextWide`: the next word, the next two words
-/

namespace ImageCircuit

/-- A position in a stream of words. -/
structure ChaCha where
  /-- Eight words. -/
  key : List UInt32
  stream : UInt64
  /-- The number of the next block. -/
  counter : UInt64
  /-- Words that come before the next block. -/
  pending : List UInt32
  deriving Repr

namespace ChaCha

/-! ## Blocks -/

/-- A word turned left by `n` bits. -/
def rotateLeft (x n : UInt32) : UInt32 :=
  x <<< n ||| x >>> (32 - n)

/-- The sixteen words that a block is made of. -/
abbrev State := Vector UInt32 16

/-- One quarter round on the four words at the given places. -/
def quarterRound (a b c d : Fin 16) (s : State) : State :=
  let s := s.set a (s[a] + s[b])
  let s := s.set d (rotateLeft (s[d] ^^^ s[a]) 16)
  let s := s.set c (s[c] + s[d])
  let s := s.set b (rotateLeft (s[b] ^^^ s[c]) 12)
  let s := s.set a (s[a] + s[b])
  let s := s.set d (rotateLeft (s[d] ^^^ s[a]) 8)
  let s := s.set c (s[c] + s[d])
  s.set b (rotateLeft (s[b] ^^^ s[c]) 7)

/-- Four rounds down the columns and four along the diagonals. -/
def doubleRound (s : State) : State :=
  let s := quarterRound 0 4 8 12 s
  let s := quarterRound 1 5 9 13 s
  let s := quarterRound 2 6 10 14 s
  let s := quarterRound 3 7 11 15 s
  let s := quarterRound 0 5 10 15 s
  let s := quarterRound 1 6 11 12 s
  let s := quarterRound 2 7 8 13 s
  quarterRound 3 4 9 14 s

/-- The low and the high half of a 64-bit word. -/
def halves (x : UInt64) : List UInt32 :=
  [x.toUInt32, (x >>> 32).toUInt32]

/-- The state that a block starts from: four constants, the key, the counter and the stream. -/
def initialState (key : List UInt32) (counter stream : UInt64) : State :=
  let words := [0x61707865, 0x3320646e, 0x79622d32, 0x6b206574] ++ key ++ halves counter ++
    halves stream
  .ofFn fun i => words.getD i 0

/-- The sixteen output words of a block. -/
def block (key : List UInt32) (counter stream : UInt64) : List UInt32 :=
  let start := initialState key counter stream
  let mixed := doubleRound (doubleRound (doubleRound (doubleRound start)))
  (Vector.zipWith (· + ·) mixed start).toList

/-! ## Words -/

/-- Advances a seed by one step of a linear congruence. -/
def stepSeed (seed : UInt64) : UInt64 :=
  seed * 6364136223846793005 + 11634580027462260723

/-- The key word that a seed gives: its high bits folded and turned right by its highest five. -/
def keyWord (seed : UInt64) : UInt32 :=
  let folded := (((seed >>> 18) ^^^ seed) >>> 27).toUInt32
  let turn := (seed >>> 59).toUInt32
  folded >>> turn ||| folded <<< ((32 - turn) % 32)

/-- The first `n` key words after a seed. -/
def keyWords : Nat → UInt64 → List UInt32
  | 0, _ => []
  | n + 1, seed =>
    let seed := stepSeed seed
    keyWord seed :: keyWords n seed

/-- The start of stream 0 of a seed. -/
def ofSeed (seed : UInt64) : ChaCha where
  key := keyWords 8 seed
  stream := 0
  counter := 0
  pending := []

/-- The start of another stream of the same seed. -/
def withStream (g : ChaCha) (stream : UInt64) : ChaCha :=
  { g with stream }

/-- The same words with others in front. -/
def withWords (g : ChaCha) (words : List UInt32) : ChaCha :=
  { g with pending := words ++ g.pending }

/-- The next word. -/
def next (g : ChaCha) : UInt32 × ChaCha :=
  match g.pending with
  | w :: rest => (w, { g with pending := rest })
  | [] =>
    match block g.key g.counter g.stream with
    | w :: rest => (w, { g with pending := rest, counter := g.counter + 1 })
    | [] => (0, g)

/-- The next two words as one, the first the low half. -/
def nextWide (g : ChaCha) : UInt64 × ChaCha :=
  let (low, g) := g.next
  let (high, g) := g.next
  (high.toUInt64 <<< 32 ||| low.toUInt64, g)

/-! ## Draws -/

/-- Draws words `v` of `width` bits until the low half of `v * (n + 1)` falls into the range where
all results are equally likely, and returns the high half. Each draw succeeds at least half of the
time, so the bound on their number is out of reach of any stream of random words. -/
def reject (width n : Nat) (draw : ChaCha → Nat × ChaCha) : Nat → ChaCha → Fin (n + 1) × ChaCha
  | 0, g => (0, g)
  | tries + 1, g =>
    let zone := (n + 1) <<< (width - 1 - (n + 1).log2) - 1
    let (v, g) := draw g
    let product := v * (n + 1)
    if product % (1 <<< width) ≤ zone then (Fin.ofNat (n + 1) (product >>> width), g)
    else reject width n draw tries g

/-- Draws that a bounded draw may take beyond the words set in front. -/
def maxTries : Nat := 4096

/-- A number of the unit interval with 53 random bits. -/
def unit (g : ChaCha) : Float × ChaCha :=
  let (v, g) := g.nextWide
  ((v >>> 11).toFloat / 9007199254740992, g)

/-- A number up to `n`, from words of 32 bits. -/
def upTo (n : Nat) (g : ChaCha) : Fin (n + 1) × ChaCha :=
  reject 32 n (fun g => let (v, g) := g.next; (v.toNat, g)) (g.pending.length + maxTries) g

/-- A number up to `n`, from words of 64 bits. -/
def wideUpTo (n : Nat) (g : ChaCha) : Fin (n + 1) × ChaCha :=
  reject 64 n (fun g => let (v, g) := g.nextWide; (v.toNat, g)) (g.pending.length + maxTries) g

instance : Source ChaCha where
  unit := unit
  upTo := upTo
  wideUpTo := wideUpTo

end ChaCha

end ImageCircuit
