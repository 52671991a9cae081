import LibHpack.Buffer.Chunk

/-!
# LibHpack.Path.Model — chula_path_short (libchula util.c)

`chula_path_short` takes the dot segments out of the path in its buffer.  The pointers `p`, `end`, `dots_end` and
`prev_slash` are positions in the block of the buffer; `end` is the one that is not set anew when a segment "." has been
removed, so the loop may read on behind the string.

`dotSegmentsRemoved` is what the call is for: the segments of the path, without the ones that are "." and without the ones
that are ".." and the ones before these.
-/

namespace LibHpack

open Memory Run RawBuffer

/-- What ends a call without a result: an access outside of the block, or to an octet that was not written, and a loop
that goes on. -/
inductive PathFault
  | access (e : Escape)
  | hang
  deriving DecidableEq, Repr

/-- `buf[i]`. -/
def octetAt (b : RawBuffer) (i : ℕ) : Except PathFault UInt8 :=
  match b.cells[i]? with
  | some (some c) => .ok c
  | _ => .error (.access ⟨i + 1, b.cells.length⟩)

def removeChunk (b : RawBuffer) (fromPos len : ℕ) : Except PathFault RawBuffer :=
  (b.chulaBufferRemoveChunk fromPos len).mapError .access

/-- `while ((dots_end < end) && (*dots_end == '.')) dots_end++`, with `k` octets up to `end`. -/
def skipDots (b : RawBuffer) : ℕ → ℕ → Except PathFault ℕ
  | 0, dotsEnd => .ok dotsEnd
  | k + 1, dotsEnd => do
    let c ← octetAt b dotsEnd
    if c = 46 then skipDots b k (dotsEnd + 1) else .ok dotsEnd

/-- `while ((prev_slash > path->buf) && (*prev_slash != '/')) prev_slash--`. -/
def backToSlash (b : RawBuffer) : ℕ → Except PathFault ℕ
  | 0 => .ok 0
  | prevSlash + 1 => do
    let c ← octetAt b (prevSlash + 1)
    if c ≠ 47 then backToSlash b prevSlash else .ok (prevSlash + 1)

/-- `(p[1] == '/') && (p > path->buf) && (*(p-1) == '/')`. -/
def isDotSegment (path : RawBuffer) (p : ℕ) : Except PathFault Bool := do
  let c ← octetAt path (p + 1)
  if c = 47 ∧ 0 < p then do
    let prev ← octetAt path (p - 1)
    .ok (prev = 47)
  else .ok false

/-- What the loop does next: leave with `ret_ok`, or go on with a path, `p` and `end`. -/
inductive PathTurn
  | leave
  | next (path : RawBuffer) (p stop : ℕ)

/-- A run of two dots or more, from `p` to `dotsEnd`. -/
def dotsTurn (path : RawBuffer) (p stop dotsEnd : ℕ) : Except PathFault PathTurn :=
  if stop ≤ dotsEnd then .ok .leave
  else if p = 0 then .ok .leave
  else do
    let c ← octetAt path (p - 1)
    if c ≠ 47 then .ok (.next path dotsEnd stop)
    else do
      let prevSlash ← backToSlash path (if 0 < p - 1 then p - 1 - 1 else p - 1)
      let len := dotsEnd - prevSlash
      let path ← removeChunk path prevSlash len
      .ok (.next path (p - (len - (dotsEnd - p))) path.len)

/-- One turn of the loop, at an octet before `end`. -/
def pathTurn (path : RawBuffer) (p stop : ℕ) : Except PathFault PathTurn := do
  let c ← octetAt path p
  if c ≠ 46 then .ok (.next path (p + 1) stop)
  else do
    let dot ← isDotSegment path p
    if dot then do
      let path ← removeChunk path p 2
      .ok (.next path (p - 1) stop)
    else if stop < p + 2 then .ok .leave
    else do
      let c ← octetAt path (p + 1)
      if c ≠ 46 then .ok (.next path (p + 2) stop)
      else do
        let dotsEnd ← skipDots path (stop - (p + 2)) (p + 2)
        dotsTurn path p stop dotsEnd

def pathLoop : ℕ → RawBuffer → ℕ → ℕ → Except PathFault (Ret × RawBuffer)
  | 0, _, _, _ => .error .hang
  | turns + 1, path, p, stop =>
    if p < stop then do
      let turn ← pathTurn path p stop
      match turn with
      | .leave => .ok (.ok, path)
      | .next path p stop => pathLoop turns path p stop
    else .ok (.ok, path)

/-- `chula_path_short`. -/
def chulaPathShort (turns : ℕ) (path : RawBuffer) : Except PathFault (Ret × RawBuffer) :=
  pathLoop turns path 0 path.len

/-! ### The reference -/

/-- The segments that are left: `kept` are those of what has been read. -/
def resolve (kept : List (List UInt8)) : List (List UInt8) → List (List UInt8)
  | [] => kept
  | s :: segs =>
    if s = [46] then resolve kept segs
    else if s = [46, 46] then resolve kept.dropLast segs
    else resolve (kept ++ [s]) segs

/-- The path, from its first slash on, of some segments. -/
def pathOf (segs : List (List UInt8)) : List UInt8 := 47 :: [47].intercalate segs

/-- The segments of a path behind its first slash. -/
def segmentsOf (path : List UInt8) : List (List UInt8) := path.tail.splitOn 47

/-- Dot-segment removal. -/
def dotSegmentsRemoved (path : List UInt8) : List UInt8 := pathOf (resolve [] (segmentsOf path))

end LibHpack
