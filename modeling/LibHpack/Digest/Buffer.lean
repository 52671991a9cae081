import LibHpack.Base64.RoundTrip
import LibHpack.Buffer.Hex
import LibHpack.Digest.Md5Runs
import LibHpack.Digest.Sha1Runs
import LibHpack.Digest.Sha512Runs

/-!
# LibHpack.Digest.Buffer — the digest of a buffer (libchula buffer.c)

Three algorithms, and three ways to put the digest into a buffer: as hexadecimal digits over the text itself, as octets or as
base 64 into another buffer.  The calls differ in the algorithm, the sizes and the order of some statements that have nothing
to do with each other, so each way is one definition with the algorithm as a parameter.  An algorithm is given the context
that it finds on the stack, with whatever is there.
-/

namespace LibHpack

open Memory Run Streaming

/-! ### The algorithms -/

/-- `MD5Init`, `MD5Update` and `MD5Final`. -/
def md5Of (ctx : MD5Context) (text : List UInt8) : Except Escape (List UInt8) := do
  let ctx ← md5Update (md5Init ctx) text
  md5Final ctx

/-- `sha_init`, `sha_update` and `sha_final`. -/
def sha1Of (info : ShaInfo) (text : List UInt8) : Except Escape (List UInt8) := do
  let info ← shaUpdate (shaInit info) text
  shaFinal info

/-- `SHA512_Init`, `SHA512_Update` and `SHA512_Final`. -/
def sha512Of (m : Sha512.SHA512_CTX) (text : List UInt8) : Except Escape (List UInt8) := do
  let m ← Sha512.sha512Update (Sha512.sha512Init m) text
  Sha512.sha512Final m

/-! ### The calls -/

section Calls

variable (digest : List UInt8 → Except Escape (List UInt8))

/-- The digest of the text as `n` hexadecimal digits in its place, where `size` octets are asked for. -/
def encodeDigestHex (size n : ℕ) (buf : RawBuffer) : Except Escape RawBuffer := do
  let text ← readAll buf.cells 0 buf.len
  let octets ← digest text
  let buf := buf.chulaBufferEnsureSize size
  let (m, _) ← encodeHexLoop octets buf.cells 0
  let m ← store m n [some 0]
  return { buf with buf := some m, len := n }

/-- The `n` octets of the digest, in another buffer. -/
def encodeDigest (n : ℕ) (buf encoded : RawBuffer) : Except Escape RawBuffer := do
  let encoded := encoded.chulaBufferEnsureSize (n + 1)
  let text ← readAll buf.cells 0 buf.len
  let octets ← digest text
  let m ← store encoded.cells 0 (octets.map some)
  let m ← store m n [some 0]
  return { encoded with buf := some m, len := n }

/-- The digest in base 64, in both buffers. -/
def encodeDigestBase64 (n : ℕ) (buf encoded : RawBuffer) : Except Escape (RawBuffer × RawBuffer) := do
  let encoded := encoded.chulaBufferEnsureSize (n * 2 + 1)
  let encoded ← encoded.chulaBufferClean
  let encoded ← encodeDigest digest n buf encoded
  let octets ← readAll encoded.cells 0 encoded.len
  let buf ← chulaBufferEncodeBase64 octets buf
  let encoded ← encoded.chulaBufferClean
  let text ← readAll buf.cells 0 buf.len
  let encoded ← encoded.chulaBufferAdd (.outside text) text.length
  return (buf, encoded)

end Calls

/-- `chula_buffer_encode_md5_digest`. -/
def chulaBufferEncodeMd5Digest (ctx : MD5Context) (buf : RawBuffer) : Except Escape RawBuffer :=
  encodeDigestHex (md5Of ctx) 34 32 buf

/-- `chula_buffer_encode_md5`. -/
def chulaBufferEncodeMd5 (ctx : MD5Context) (buf encoded : RawBuffer) : Except Escape RawBuffer :=
  encodeDigest (md5Of ctx) 16 buf encoded

/-- `chula_buffer_encode_sha1`. -/
def chulaBufferEncodeSha1 (info : ShaInfo) (buf encoded : RawBuffer) : Except Escape RawBuffer :=
  encodeDigest (sha1Of info) 20 buf encoded

/-- `chula_buffer_encode_sha1_digest`. -/
def chulaBufferEncodeSha1Digest (info : ShaInfo) (buf : RawBuffer) : Except Escape RawBuffer :=
  encodeDigestHex (sha1Of info) 41 40 buf

/-- `chula_buffer_encode_sha1_base64`. -/
def chulaBufferEncodeSha1Base64 (info : ShaInfo) (buf encoded : RawBuffer) : Except Escape (RawBuffer × RawBuffer) :=
  encodeDigestBase64 (sha1Of info) 20 buf encoded

/-- `chula_buffer_encode_sha512`. -/
def chulaBufferEncodeSha512 (m : Sha512.SHA512_CTX) (buf encoded : RawBuffer) : Except Escape RawBuffer :=
  encodeDigest (sha512Of m) 64 buf encoded

/-- `chula_buffer_encode_sha512_digest`. -/
def chulaBufferEncodeSha512Digest (m : Sha512.SHA512_CTX) (buf : RawBuffer) : Except Escape RawBuffer :=
  encodeDigestHex (sha512Of m) 129 128 buf

/-- `chula_buffer_encode_sha512_base64`. -/
def chulaBufferEncodeSha512Base64 (m : Sha512.SHA512_CTX) (buf encoded : RawBuffer) :
    Except Escape (RawBuffer × RawBuffer) :=
  encodeDigestBase64 (sha512Of m) 64 buf encoded

/-! ### What they do -/

theorem md5Of_eq {ctx : MD5Context} (h : ctx.inp.length = 64) (s : List UInt8) (hs : s.length < 2 ^ 32) :
    md5Of ctx s = .ok (rfc1321 s) := by
  obtain ⟨ctx', hupdate, h'⟩ := md5Update_holds (md5Init_holds h) s hs
  rw [md5Of, ok_then hupdate, md5Final_eq h', List.nil_append]

theorem sha1Of_eq {info : ShaInfo} (h : info.data.length = 64) (s : List UInt8) (hs : s.length < 2 ^ 31) :
    sha1Of info s = .ok (sha1Digest s) := by
  obtain ⟨info', hupdate, h'⟩ := shaUpdate_holds (shaInit_holds h) s hs
  rw [sha1Of, ok_then hupdate, shaFinal_eq h', List.nil_append]

theorem sha512Of_eq {m : Sha512.SHA512_CTX} (h : m.save.length = 128) (s : List UInt8) (hs : s.length < 2 ^ 61) :
    sha512Of m s = .ok (Sha512.sha512Digest s) := by
  obtain ⟨m', hupdate, h'⟩ := Sha512.sha512Update_holds (Sha512.sha512Init_holds h) s hs
  rw [sha512Of, ok_then hupdate, Sha512.sha512Final_eq h', List.nil_append]

section Lemmas

variable {digest : List UInt8 → Except Escape (List UInt8)} {b e : RawBuffer} {s d old : List UInt8} {n size : ℕ}

theorem Reads.readAll (h : b.Reads s) : readAll b.cells 0 b.len = .ok s := by
  have hlen := congrArg List.length h.2
  rw [List.length_take, List.length_map] at hlen
  have hle := h.1
  exact readAll_of_take h.2 (by omega)

/-- **A digest in the place of the text.** -/
theorem encodeDigestHex_eq (h : b.Filled s) (hd : digest s = .ok d) (hn : 2 * d.length = n) (hsize : n < size)
    (hlt : size < 2 ^ 32) :
    ∃ b', encodeDigestHex digest size n b = .ok b' ∧ b'.Filled (hexOf d) ∧ b'.Terminated := by
  obtain ⟨hfilled, hfits⟩ := h.ensureSize hlt
  have hlen := hexOf_length d
  have hcells := hfilled.size_eq
  have hloop := (encodeHexLoop_writes d (b.chulaBufferEnsureSize size).cells 0).fits (by omega)
  obtain ⟨rest, hput, hrest⟩ := written_text (s := hexOf d) (b.chulaBufferEnsureSize size).cells (by omega)
  rw [hcells] at hrest
  obtain ⟨hf, ht⟩ := RawBuffer.filled_text hrest hfilled.size_lt
  rw [hlen, hn] at hput hf ht
  refine ⟨_, ?_, hf, ht⟩
  rw [encodeDigestHex, ok_then (Reads.readAll h.reads), ok_then hd]
  dsimp only
  rw [ok_then hloop]
  dsimp only
  rw [ok_then hput]
  rfl

/-- **A digest in another buffer.** -/
theorem encodeDigest_eq (h : b.Filled s) (he : e.Filled old) (hd : digest s = .ok d) (hn : d.length = n)
    (hlt : n + 1 < 2 ^ 32) :
    ∃ e', encodeDigest digest n b e = .ok e' ∧ e'.Filled d ∧ e'.Terminated := by
  obtain ⟨hfilled, hfits⟩ := he.ensureSize hlt
  have hcells := hfilled.size_eq
  have hstore : store (e.chulaBufferEnsureSize (n + 1)).cells 0 (d.map some) =
      .ok (written (e.chulaBufferEnsureSize (n + 1)).cells 0 d) := store_written (by omega)
  obtain ⟨rest, hput, hrest⟩ := written_text (s := d) (e.chulaBufferEnsureSize (n + 1)).cells (by omega)
  rw [hcells] at hrest
  obtain ⟨hf, ht⟩ := RawBuffer.filled_text hrest hfilled.size_lt
  rw [hn] at hput hf ht
  refine ⟨_, ?_, hf, ht⟩
  rw [encodeDigest, ok_then (Reads.readAll h.reads), ok_then hd, ok_then hstore, ok_then hput]
  rfl

/-- **A digest in base 64**, in both buffers. -/
theorem encodeDigestBase64_eq (h : b.Filled s) (he : e.Filled old) (hd : digest s = .ok d) (hn : d.length = n)
    (hpos : 0 < n) (hlt : n < 2 ^ 28) :
    ∃ b' e', encodeDigestBase64 digest n b e = .ok (b', e') ∧ b'.Reads (base64Of d) ∧ e'.Reads (base64Of d) := by
  obtain ⟨hfilled, -⟩ := he.ensureSize (n := n * 2 + 1) (by omega)
  obtain ⟨c, hclean, hc, -⟩ := hfilled.clean
  obtain ⟨e₁, hdigest, he₁, -⟩ := encodeDigest_eq h hc hd hn (by omega)
  have hne : d ≠ [] := List.ne_nil_of_length_pos (by omega)
  obtain ⟨b', rest, hencode, hlen, hcells⟩ := encodeBase64_eq h hne (by omega)
  have hb' : b'.Reads (base64Of d) := RawBuffer.reads_of_cells (some 0 :: rest) hlen hcells
  obtain ⟨c', hclean', hc', -⟩ := he₁.clean
  have hroom : ([] : List UInt8).length + (base64Of d).length < 2 ^ 32 := by
    rw [List.length_nil, base64Of_length]
    omega
  obtain ⟨e', hadd, he'⟩ := hc'.add hroom
  refine ⟨b', e', ?_, hb', he'⟩
  rw [encodeDigestBase64, ok_then hclean, ok_then hdigest, ok_then (Reads.readAll he₁.reads), ok_then hencode, ok_then hclean',
    ok_then (Reads.readAll hb'), ok_then hadd]
  rfl

end Lemmas

/-! ### The calls, in full -/

variable {b e : RawBuffer} {s old : List UInt8}

theorem rfc1321_length (s : List UInt8) : (rfc1321 s).length = 16 := rfl

theorem sha1Digest_length (s : List UInt8) : (sha1Digest s).length = 20 := rfl

theorem sha512Digest_length (s : List UInt8) : (Sha512.sha512Digest s).length = 64 := rfl

/-- **Digests in the place of the text**: whatever the buffer contains, and whatever is on the stack, the digits are those of
the digest, and no access leaves the buffer. -/
theorem digests_hex (ctx : MD5Context) (hctx : ctx.inp.length = 64) (info : ShaInfo) (hinfo : info.data.length = 64)
    (m : Sha512.SHA512_CTX) (hm : m.save.length = 128) (h : b.Filled s) (hs : s.length < 2 ^ 31) :
    (∃ b', chulaBufferEncodeMd5Digest ctx b = .ok b' ∧ b'.Filled (hexOf (rfc1321 s)) ∧ b'.Terminated) ∧
      (∃ b', chulaBufferEncodeSha1Digest info b = .ok b' ∧ b'.Filled (hexOf (sha1Digest s)) ∧ b'.Terminated) ∧
      ∃ b', chulaBufferEncodeSha512Digest m b = .ok b' ∧ b'.Filled (hexOf (Sha512.sha512Digest s)) ∧ b'.Terminated := by
  refine ⟨encodeDigestHex_eq h (md5Of_eq hctx s (by omega)) ?_ (by decide) (by decide),
    encodeDigestHex_eq h (sha1Of_eq hinfo s hs) ?_ (by decide) (by decide),
    encodeDigestHex_eq h (sha512Of_eq hm s (by omega)) ?_ (by decide) (by decide)⟩
  · rw [rfc1321_length]
  · rw [sha1Digest_length]
  · rw [sha512Digest_length]

/-- The contexts as they may stand on the stack, and two buffers with texts. -/
def stackMd5 : MD5Context := ⟨⟨0, 0, 0, 0⟩, 0, 0, List.replicate 64 none⟩

def stackSha1 : ShaInfo := ⟨(0, 0, 0, 0, 0), 0, 0, List.replicate 64 none, 0⟩

def stackSha512 : Sha512.SHA512_CTX := ⟨0, 0, ⟨0, 0, 0, 0, 0, 0, 0, 0⟩, List.replicate 128 none⟩

def bufAbc : RawBuffer := ⟨some [some 97, some 98, some 99, some 0], 4, 3⟩

def bufXy : RawBuffer := ⟨some [some 120, some 121, some 0, none], 4, 2⟩

theorem bufAbc_filled : bufAbc.Filled [97, 98, 99] :=
  (RawBuffer.filled_text (s := [97, 98, 99]) rfl (by decide)).1

theorem bufXy_filled : bufXy.Filled [120, 121] :=
  (RawBuffer.filled_text (s := [120, 121]) rfl (by decide)).1

theorem digests_hex_abc :
    (∃ b', chulaBufferEncodeMd5Digest stackMd5 bufAbc = .ok b' ∧ b'.Filled (hexOf (rfc1321 [97, 98, 99])) ∧
        b'.Terminated) ∧
      (∃ b', chulaBufferEncodeSha1Digest stackSha1 bufAbc = .ok b' ∧ b'.Filled (hexOf (sha1Digest [97, 98, 99])) ∧
        b'.Terminated) ∧
      ∃ b', chulaBufferEncodeSha512Digest stackSha512 bufAbc = .ok b' ∧
        b'.Filled (hexOf (Sha512.sha512Digest [97, 98, 99])) ∧ b'.Terminated :=
  digests_hex stackMd5 rfl stackSha1 rfl stackSha512 rfl bufAbc_filled (by decide)

/-- **Digests in another buffer**, as octets and in base 64; the text of the first buffer is gone in the second case. -/
theorem digests_encoded (ctx : MD5Context) (hctx : ctx.inp.length = 64) (info : ShaInfo) (hinfo : info.data.length = 64)
    (m : Sha512.SHA512_CTX) (hm : m.save.length = 128) (h : b.Filled s) (he : e.Filled old) (hs : s.length < 2 ^ 31) :
    (∃ e', chulaBufferEncodeMd5 ctx b e = .ok e' ∧ e'.Filled (rfc1321 s) ∧ e'.Terminated) ∧
      (∃ e', chulaBufferEncodeSha1 info b e = .ok e' ∧ e'.Filled (sha1Digest s) ∧ e'.Terminated) ∧
      (∃ e', chulaBufferEncodeSha512 m b e = .ok e' ∧ e'.Filled (Sha512.sha512Digest s) ∧ e'.Terminated) ∧
      (∃ b' e', chulaBufferEncodeSha1Base64 info b e = .ok (b', e') ∧ b'.Reads (base64Of (sha1Digest s)) ∧
        e'.Reads (base64Of (sha1Digest s))) ∧
      ∃ b' e', chulaBufferEncodeSha512Base64 m b e = .ok (b', e') ∧ b'.Reads (base64Of (Sha512.sha512Digest s)) ∧
        e'.Reads (base64Of (Sha512.sha512Digest s)) :=
  ⟨encodeDigest_eq h he (md5Of_eq hctx s (by omega)) (rfc1321_length s) (by decide),
    encodeDigest_eq h he (sha1Of_eq hinfo s hs) (sha1Digest_length s) (by decide),
    encodeDigest_eq h he (sha512Of_eq hm s (by omega)) (sha512Digest_length s) (by decide),
    encodeDigestBase64_eq h he (sha1Of_eq hinfo s hs) (sha1Digest_length s) (by decide) (by decide),
    encodeDigestBase64_eq h he (sha512Of_eq hm s (by omega)) (sha512Digest_length s) (by decide) (by decide)⟩

theorem digests_encoded_abc :
    (∃ e', chulaBufferEncodeMd5 stackMd5 bufAbc bufXy = .ok e' ∧ e'.Filled (rfc1321 [97, 98, 99]) ∧ e'.Terminated) ∧
      (∃ e', chulaBufferEncodeSha1 stackSha1 bufAbc bufXy = .ok e' ∧ e'.Filled (sha1Digest [97, 98, 99]) ∧
        e'.Terminated) ∧
      (∃ e', chulaBufferEncodeSha512 stackSha512 bufAbc bufXy = .ok e' ∧
        e'.Filled (Sha512.sha512Digest [97, 98, 99]) ∧ e'.Terminated) ∧
      (∃ b' e', chulaBufferEncodeSha1Base64 stackSha1 bufAbc bufXy = .ok (b', e') ∧
        b'.Reads (base64Of (sha1Digest [97, 98, 99])) ∧ e'.Reads (base64Of (sha1Digest [97, 98, 99]))) ∧
      ∃ b' e', chulaBufferEncodeSha512Base64 stackSha512 bufAbc bufXy = .ok (b', e') ∧
        b'.Reads (base64Of (Sha512.sha512Digest [97, 98, 99])) ∧ e'.Reads (base64Of (Sha512.sha512Digest [97, 98, 99])) :=
  digests_encoded stackMd5 rfl stackSha1 rfl stackSha512 rfl bufAbc_filled bufXy_filled (by decide)

end LibHpack
