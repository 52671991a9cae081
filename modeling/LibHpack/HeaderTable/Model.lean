import Mathlib.Tactic
import LibHpack.General.Ring
import LibHpack.BitmapSet
import LibHpack.HeaderField

/-!
# LibHpack.HeaderTable.Model — the header table (header_table.c, header_table.h)

The table is two circular buffers: 128 offsets (`HPACK_MAX_HEADER_TABLE_ENTRIES`) and 4096 octets of data
(`HPACK_CB_HEADER_DATA_SIZE`, `SETTINGS_HEADER_TABLE_SIZE`), and three counters.  All counters, heads and tails are
`uint16_t`.  Memory is a function of the cell; only the cells inside of the array belong to it, and a copy that leaves
the array is `Fault.overread`.

A loop of the source that evicts until a condition fails is `evictUntil`, with the number of entries as fuel:
evicting an empty table changes nothing, so a loop that is not over by then never is (`evictUntil_fuel`).
-/

namespace LibHpack

/-- `x & (size - 1)` for a power of two, on a two's complement integer. -/
def cbMask (x : ℤ) (size : ℕ) : ℕ := (x % size).toNat

/-- `header_cb_move`. -/
def headerCbMove (cb inc size : ℕ) : ℕ := (cb + inc) &&& (size - 1)

/-- `hpack_header_table_field_info_t`, the block in front of each stored name and value. -/
structure FieldInfo where
  nameLength : ℕ
  valueLength : ℕ
  flags : FieldFlags
  deriving DecidableEq, Repr

/-- A `uint16_t` in memory, the low octet first. -/
def uint16Octets (n : ℕ) : List UInt8 := [UInt8.ofNat (n % 256), UInt8.ofNat (n / 256 % 256)]

/-- The eight octets of the block. -/
def FieldInfo.octets (i : FieldInfo) : List UInt8 :=
  uint16Octets i.nameLength ++ uint16Octets i.valueLength ++ i.flags.octets

/-- The block behind its octets. -/
def FieldInfo.ofOctets (bs : List UInt8) : FieldInfo where
  nameLength := (bs.getD 0 0).toNat + 256 * (bs.getD 1 0).toNat
  valueLength := (bs.getD 2 0).toNat + 256 * (bs.getD 3 0).toNat
  flags := FieldFlags.ofOctet (bs.getD 4 0)

/-- `hpack_headers_offs_cb_t`. -/
structure HeadersOffsCb where
  buffer : ℕ → ℕ
  head : ℕ
  tail : ℕ

/-- `hpack_headers_data_cb_t`. -/
structure HeadersDataCb where
  buffer : ℕ → UInt8
  head : ℕ
  tail : ℕ

/-- `hpack_header_table_t`. -/
structure HeaderTable where
  headersOffsets : HeadersOffsCb
  headersData : HeadersDataCb
  numHeaders : ℕ
  usedData : ℕ
  maxData : ℕ

/-! ### The static table -/

/-- `HDR_NIL`. -/
def hdrNil (s : String) : HeaderField where
  flags := ⟨.isIndexedStatic, .isIndexedStatic, .repIndexed⟩
  name := chulaBufferFake (ascii s)
  value := chulaBufferInit

/-- `HDR_VAL`. -/
def hdrVal (n v : String) : HeaderField where
  flags := ⟨.isIndexedStatic, .isIndexedStatic, .repIndexed⟩
  name := chulaBufferFake (ascii n)
  value := chulaBufferFake (ascii v)

/-- `static_table`, with `STATIC_ENTRIES` = 61 entries. -/
def staticTable : List HeaderField := [
  hdrNil ":authority", hdrVal ":method" "GET", hdrVal ":method" "POST", hdrVal ":path" "/",
  hdrVal ":path" "/index.html", hdrVal ":scheme" "http", hdrVal ":scheme" "https", hdrVal ":status" "200",
  hdrVal ":status" "204", hdrVal ":status" "206", hdrVal ":status" "304", hdrVal ":status" "400",
  hdrVal ":status" "404", hdrVal ":status" "500", hdrNil "accept-charset", hdrNil "accept-encoding",
  hdrNil "accept-language", hdrNil "accept-ranges", hdrNil "accept", hdrNil "access-control-allow-origin",
  hdrNil "age", hdrNil "allow", hdrNil "authorization", hdrNil "cache-control", hdrNil "content-disposition",
  hdrNil "content-encoding", hdrNil "content-language", hdrNil "content-length", hdrNil "content-location",
  hdrNil "content-range", hdrNil "content-type", hdrNil "cookie", hdrNil "date", hdrNil "etag", hdrNil "expect",
  hdrNil "expires", hdrNil "from", hdrNil "host", hdrNil "if-match", hdrNil "if-modified-since",
  hdrNil "if-none-match", hdrNil "if-range", hdrNil "if-unmodified-since", hdrNil "last-modified", hdrNil "link",
  hdrNil "location", hdrNil "max-forwards", hdrNil "proxy-authenticate", hdrNil "proxy-authorization",
  hdrNil "range", hdrNil "referer", hdrNil "refresh", hdrNil "retry-after", hdrNil "server", hdrNil "set-cookie",
  hdrNil "strict-transport-security", hdrNil "transfer-encoding", hdrNil "user-agent", hdrNil "vary", hdrNil "via",
  hdrNil "www-authenticate"]

/-- `static_table[n]`. -/
def staticEntry (n : ℕ) : HeaderField := staticTable.getD n hpackHeaderFieldInit

/-! ### Circular buffers -/

/-- `INDEX_SWITCH_HT_HPACK`: from an HPACK index to a slot and back. -/
def indexSwitchHtHpack (t : HeaderTable) (i : ℕ) : ℕ := cbMask ((t.headersOffsets.tail : ℤ) - i + 128) 128

/-- `header_data_free`. -/
def headerDataFree (h : HeadersDataCb) : ℕ := cbMask ((h.head : ℤ) - h.tail + 4095) 4096

/-- `header_offsets_free`. -/
def headerOffsetsFree (o : HeadersOffsCb) : ℕ := cbMask ((o.head : ℤ) - o.tail + 127) 128

/-- `header_offs_is_full`. -/
def headerOffsIsFull (o : HeadersOffsCb) : Bool := cbMask ((o.head : ℤ) - 1) 128 == o.tail

/-- `hpack_header_offset_has_data`. -/
def hpackHeaderOffsetHasData (t : HeaderTable) (n : ℕ) : Bool := indexSwitchHtHpack t n ≤ t.numHeaders

def headerOffsAdd (offsets : HeadersOffsCb) (offset : ℕ) : Ret × HeadersOffsCb :=
  if headerOffsetsFree offsets < 1 then (.error, offsets)
  else (.ok, { offsets with
    buffer := Function.update offsets.buffer offsets.tail offset
    tail := headerCbMove offsets.tail 1 128 })

/-- `HPACK_CB_HEADER_DATA_SIZE - offset - h_data->head`, as an `unsigned int`. -/
def headerDataToEnd (h : HeadersDataCb) (offset : ℕ) : ℕ := (((4096 : ℤ) - offset - h.head) % 2 ^ 32).toNat

/-- The copy made by `header_data_get` and by `header_data_get_chula`. -/
def headerDataCopy (h : HeadersDataCb) (offset numBytes : ℕ) : C (List UInt8) := do
  let toEnd := headerDataToEnd h offset
  let first ← memRead h.buffer 4096 offset (min toEnd numBytes)
  if toEnd < numBytes then
    let rest ← memRead h.buffer 4096 0 (numBytes - toEnd)
    return first ++ rest
  else return first

/-- `header_data_get`; the octets are those stored in `dst`. -/
def headerDataGet (h : HeadersDataCb) (offset numBytes : ℕ) : C (Ret × List UInt8) :=
  if 4096 < numBytes then .ok (.error, [])
  else do
    let bs ← headerDataCopy h offset numBytes
    return (.ok, bs)

def headerDataGetChula (h : HeadersDataCb) (offset : ℕ) (dst : ChulaBuffer) (numBytes : ℕ) :
    C (Ret × ChulaBuffer) :=
  if 4096 < numBytes then .ok (.error, dst)
  else do
    let bs ← headerDataCopy h offset numBytes
    return (.ok, chulaBufferAdd dst bs)

/-- `header_data_add`; `data` is `none` for a null pointer. -/
def headerDataAdd (h : HeadersDataCb) (data : Option (List UInt8)) (dataSize : ℕ) : Ret × HeadersDataCb :=
  match data with
  | none => (.error, h)
  | some bs =>
    if headerDataFree h < dataSize then (.error, h)
    else
      let toEnd := 4096 - h.tail
      let src := bs.take dataSize
      -- both copies of the source; the second one copies nothing unless `to_end < data_size`
      (.ok, { h with
        buffer := Ring.blit (Ring.blit h.buffer h.tail (src.take toEnd)) 0 (src.drop toEnd)
        tail := headerCbMove h.tail dataSize 4096 })

/-! ### The operations -/

/-- `header_table_evict`; the last component is the slot stored in `*ret_evicted`, if one is. -/
def headerTableEvict (t : HeaderTable) : C (Ret × HeaderTable × Option ℕ) :=
  if t.numHeaders = 0 then .ok (.ok, t, none)
  else
    let evicted := t.headersOffsets.head
    if t.headersData.head ≠ t.headersOffsets.buffer evicted then .ok (.error, t, none)
    else do
      let (_, bs) ← headerDataGet t.headersData (t.headersOffsets.buffer evicted) 8
      let info := FieldInfo.ofOctets bs
      return (.ok,
        { t with
          headersOffsets := { t.headersOffsets with head := headerCbMove t.headersOffsets.head 1 128 }
          headersData := { t.headersData with
            head := headerCbMove t.headersData.head (8 + info.nameLength + info.valueLength) 4096 }
          numHeaders := cbMask ((t.numHeaders : ℤ) - 1) (2 ^ 16)
          usedData := cbMask ((t.usedData : ℤ) - (info.nameLength + info.valueLength + 32)) (2 ^ 16) },
        some evicted)

/-- `while (more) { header_table_evict; hpack_set_add }`. -/
def evictUntil (more : HeaderTable → Bool) : ℕ → HeaderTable → HpackSet → C (Ret × HeaderTable × HpackSet)
  | fuel, t, evictedSet =>
    if more t then
      match fuel with
      | 0 => .error .hang
      | fuel + 1 => do
        let (ret, t', evicted) ← headerTableEvict t
        if ret ≠ .ok then return (ret, t', evictedSet)
        else
          -- an empty table stores no slot, but then the loop never ends and the set is never seen
          let evictedSet' := match evicted with
            | some e => (hpackSetAdd evictedSet e).2
            | none => evictedSet
          evictUntil more fuel t' evictedSet'
    else .ok (.ok, t, evictedSet)

def hpackHeaderTableClear (t : HeaderTable) : HeaderTable where
  headersOffsets := { t.headersOffsets with head := 0, tail := 0 }
  headersData := { t.headersData with head := 0, tail := 0 }
  numHeaders := 0
  usedData := 0
  maxData := 4096

/-- `hpack_header_table_init`, on whatever the memory of the table holds. -/
def hpackHeaderTableInit (t : HeaderTable) : HeaderTable := hpackHeaderTableClear t

/-- The loop condition of `hpack_header_table_add`. -/
def addNeedsRoom (fieldSize : ℕ) (t : HeaderTable) : Bool := (t.maxData : ℤ) - t.usedData < fieldSize

def hpackHeaderTableAdd (t : HeaderTable) (field : HeaderField) : C (Ret × HeaderTable × HpackSet) :=
  let evictedSet := hpackSetInit false
  let fieldSize := hpackHeaderFieldGetSize field
  if t.maxData < fieldSize then .ok (.ok, hpackHeaderTableClear t, hpackSetFill)
  else do
    let (ret, t, evictedSet) ← evictUntil (addNeedsRoom fieldSize) t.numHeaders t evictedSet
    if ret ≠ .ok then return (ret, t, evictedSet)
    else if headerOffsIsFull t.headersOffsets then return (.error, t, evictedSet)
    else
      let (ret1, offs) := headerOffsAdd t.headersOffsets t.headersData.tail
      let info : FieldInfo := ⟨field.name.len % 2 ^ 16, field.value.len % 2 ^ 16, field.flags⟩
      let (ret2, data) := headerDataAdd t.headersData (some info.octets) 8
      let (ret3, data) := headerDataAdd data field.name.buf info.nameLength
      let (ret4, data) := if 0 < info.valueLength then headerDataAdd data field.value.buf info.valueLength
        else (.ok, data)
      let t := { t with headersOffsets := offs, headersData := data }
      if ret1.code + ret2.code + ret3.code + ret4.code ≠ Ret.ok.code then return (.error, t, evictedSet)
      else return (.ok,
        { t with
          usedData := (t.usedData + fieldSize) % 2 ^ 16
          numHeaders := (t.numHeaders + 1) % 2 ^ 16 },
        evictedSet)

/-- `hpack_header_table_set_max`; the argument is a `uint16_t`. -/
def hpackHeaderTableSetMax (t : HeaderTable) (max : ℕ) : C (Ret × HeaderTable × HpackSet) :=
  let max := max % 2 ^ 16
  let evictedSet := hpackSetInit false
  if 4096 < max then .ok (.error, t, evictedSet)
  else if max = 0 then .ok (.ok, { hpackHeaderTableClear t with maxData := max }, evictedSet)
  else do
    let (ret, t, evictedSet) ← evictUntil (fun t => decide (max < t.usedData)) t.numHeaders t evictedSet
    if ret ≠ .ok then return (ret, t, evictedSet)
    else return (.ok, { t with maxData := max }, evictedSet)

/-- `hpack_header_table_get_set_idx`; the index is a `uint16_t`. -/
def hpackHeaderTableGetSetIdx (t : HeaderTable) (n : ℕ) (onlyName : Bool) (f : HeaderField) :
    C (Ret × HeaderField) :=
  let n := n % 2 ^ 16
  if 128 ≤ n then .ok (.notFound, f)
  else if !hpackHeaderOffsetHasData t n then .ok (.error, f)
  else do
    let offset := t.headersOffsets.buffer n
    let (_, bs) ← headerDataGet t.headersData offset 8
    let info := FieldInfo.ofOctets bs
    let f := { f with flags := info.flags }
    let offset := headerCbMove offset 8 4096
    let (ret, name) ← headerDataGetChula t.headersData offset f.name info.nameLength
    let f := { f with name := name }
    if onlyName || ret ≠ .ok then return (ret, f)
    else if 0 < info.valueLength then
      let offset := headerCbMove offset info.nameLength 4096
      let (ret, value) ← headerDataGetChula t.headersData offset f.value info.valueLength
      return (ret, { f with value := value })
    else return (ret, f)

/-- `hpack_header_table_get`; the index is a `uint16_t`.  The last component is `*is_static`, which the source leaves
unset when it returns `ret_not_found`. -/
def hpackHeaderTableGet (t : HeaderTable) (n : ℕ) (onlyName : Bool) (f : HeaderField) :
    C (Ret × HeaderField × Bool) :=
  let n := n % 2 ^ 16
  if 61 + t.numHeaders < n then .ok (.notFound, f, false)
  else if t.numHeaders < n then
    let e := staticEntry (n - (t.numHeaders + 1))
    let f := { f with flags := e.flags, name := chulaBufferAddBuffer f.name e.name }
    if onlyName then .ok (.ok, f, true)
    else .ok (.ok, { f with value := chulaBufferAddBuffer f.value e.value }, true)
  else do
    let (ret, f) ← hpackHeaderTableGetSetIdx t (indexSwitchHtHpack t n) onlyName f
    return (ret, f, false)

/-- `hpack_header_table_iter_next`. -/
def hpackHeaderTableIterNext (t : HeaderTable) (s : HpackSet) (it : SetIterator) : Option ℕ × SetIterator :=
  let (i, it) := hpackSetIterNext s it
  (i.map (indexSwitchHtHpack t), it)

end LibHpack
