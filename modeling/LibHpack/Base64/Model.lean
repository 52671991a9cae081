import LibHpack.General.Writes
import LibHpack.Buffer.Contents

/-!
# LibHpack.Base64.Model — base-64 encoding and decoding (libchula buffer.c)

The encoder reads the source, which is the list of its octets, and writes into the destination.  The decoder reads and
writes one buffer: it collects what it has decoded in `space`, and copies 127 octets at a time from there.  The digits are
below 64, so octets do for the `int`s `d` and `prev_d`; the indices are numbers, as none of them wraps for the lengths that
there are here.
-/

namespace LibHpack

open Memory

/-- `base64tab`. -/
def base64tab (x : UInt8) : UInt8 :=
  if x < 26 then 65 + x
  else if x < 52 then 71 + x
  else if x < 62 then x - 4
  else if x = 62 then 43
  else 47

/-- `b64_decode_tab`; `none` is -1. -/
def b64DecodeTab (c : UInt8) : Option UInt8 :=
  if 65 ≤ c ∧ c ≤ 90 then some (c - 65)
  else if 97 ≤ c ∧ c ≤ 122 then some (c - 71)
  else if 48 ≤ c ∧ c ≤ 57 then some (c + 4)
  else if c = 43 then some 62
  else if c = 47 then some 63
  else none

/-- The loop of `chula_buffer_encode_base64`: three octets a turn, with zeros behind the last one. -/
def base64EncodeLoop : List UInt8 → Block UInt8 → ℕ → Except Escape (Block UInt8 × ℕ)
  | [], m, j => .ok (m, j)
  | a :: rest, m, j => do
    let b := rest.getD 0 0
    let c := rest.getD 1 0
    let d := base64tab (a >>> 2)
    let e := base64tab (((a &&& 3) <<< 4) ||| (b >>> 4))
    let f := if rest.length < 1 then 61 else base64tab (((b &&& 15) <<< 2) ||| (c >>> 6))
    let g := if rest.length < 2 then 61 else base64tab (c &&& 63)
    let m ← store m j [some d]
    let m ← store m (j + 1) [some e]
    let m ← store m (j + 2) [some f]
    let m ← store m (j + 3) [some g]
    base64EncodeLoop (rest.drop 2) m (j + 4)
termination_by s => s.length
decreasing_by simp only [List.length_drop, List.length_cons]; omega

/-- `chula_buffer_encode_base64`. -/
def chulaBufferEncodeBase64 (buf : List UInt8) (encoded : RawBuffer) : Except Escape RawBuffer :=
  if buf.length = 0 then .ok encoded
  else do
    let encoded := encoded.chulaBufferEnsureSize (toUint32 (toUint32 ((buf.length + 4) * 4) / 3 + 1))
    let encoded ← encoded.chulaBufferClean
    let (m, j) ← base64EncodeLoop buf encoded.cells 0
    let m ← store m j [some 0]
    return { encoded with buf := some m, len := toUint32 j }

/-- The variables of `chula_buffer_decode_base64`, but for `i`. -/
structure Base64State where
  space : Block UInt8
  spaceIdx : ℕ
  phase : ℕ
  prevD : UInt8
  bufPos : ℕ

/-- `space[space_idx++] = v`. -/
def Base64State.push (st : Base64State) (v : UInt8) : Except Escape Base64State := do
  let space ← store st.space st.spaceIdx [some v]
  .ok { st with space, spaceIdx := st.spaceIdx + 1 }

/-- `switch (phase)`, and `prev_d = d` behind it. -/
def Base64State.digit (st : Base64State) (d : UInt8) : Except Escape Base64State :=
  match st.phase with
  | 0 => .ok { st with phase := 1, prevD := d }
  | 1 => do
    let st ← st.push ((st.prevD <<< 2) ||| ((d &&& 0x30) >>> 4))
    .ok { st with phase := 2, prevD := d }
  | 2 => do
    let st ← st.push (((st.prevD &&& 0xf) <<< 4) ||| ((d &&& 0x3c) >>> 2))
    .ok { st with phase := 3, prevD := d }
  | 3 => do
    let st ← st.push (((st.prevD &&& 0x03) <<< 6) ||| d)
    .ok { st with phase := 0, prevD := d }
  | _ => .ok { st with prevD := d }

def Base64State.char (st : Base64State) (c : UInt8) : Except Escape Base64State :=
  match b64DecodeTab c with
  | none => .ok st
  | some d => st.digit d

end LibHpack
