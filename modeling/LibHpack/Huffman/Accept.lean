import Mathlib.Data.List.TakeWhile
import LibHpack.Huffman.Encode

/-!
# LibHpack.Huffman.Accept — the decoder is a walk of the code tree

What the generator puts into `eos_padding` are the ids of the first seven nodes on the way to the end of the stream, and
no two inner nodes have the same id; so the state is accepted exactly when the bits behind the last symbol can be padding
(`HuffmanSource.Padding`).  An entry leads to an error exactly when the end of the stream is completed.  `DecodesTo` says
both of a result, and what has been put out; the results of two parts of a string are put together by `DecodesTo.next`.
-/

namespace LibHpack

/-- The first bits of the end of the stream, less than an octet of them. -/
def HuffmanSource.Padding (c : HuffmanSource) (w : List Bool) : Prop := w <+: c.bits eos ∧ w.length ≤ 7

/-! ### Nodes and their ids -/

namespace Represents

variable {c : HuffmanSource} {root : BTree} {w w1 w2 p : List Bool}

/-- **The nodes on the way** to a node that is no leaf. -/
theorem traverseLoop_inner (h : Represents c root) (hw : c.Inner (w ++ p)) :
    root.traverseLoop (root.find w) p =
      some (root.find (w ++ p), [], p.inits.map fun q => (root.find (w ++ q)).nodeId) := by
  induction p generalizing w with
  | nil =>
    rw [List.append_nil] at hw
    rw [BTree.traverseLoop, if_neg (h.inner hw).2]
    simp
  | cons b p ih =>
    have happ : w ++ b :: p = w ++ [b] ++ p := by simp
    have hchild : (root.find w).child b = root.find (w ++ [b]) := by rw [BTree.find_append]; rfl
    rw [happ] at hw ⊢
    obtain ⟨hpresent, hleaf⟩ := h.inner hw.of_append
    rw [BTree.traverseLoop, hchild]
    simp only [hpresent, Bool.not_true, Bool.false_eq_true, if_false, hleaf, ih hw]
    simp [Function.comp_def]

/-- Two inner nodes are different: the same leaves would be below them. -/
theorem find_inj (h : Represents c root) (hw1 : c.Inner w1) (heq : root.find w1 = root.find w2) : w1 = w2 := by
  obtain ⟨a, ⟨p, hp⟩, -⟩ := hw1
  -- behind the second one there is the leaf of the same symbol
  have hfind : root.find (w2 ++ p) = root.find (c.bits a) := by
    rw [← hp, BTree.find_append, BTree.find_append, heq]
  have hpresent : (root.find (w2 ++ p)).isPresent = true := by
    rw [hfind, h.present]
    exact ⟨a, List.prefix_rfl⟩
  obtain ⟨a', ha'⟩ := (h.present _).mp hpresent
  have hbits : w2 ++ p = c.bits a' := by
    by_contra hne
    exact (h.inner ⟨a', ha', hne⟩).2 (by rw [hfind]; exact h.leaf a)
  have hsame : a' = a := by
    have hid := h.nodeId a'
    rw [← hbits, hfind, h.nodeId] at hid
    exact Fin.ext hid.symm
  rw [hsame, ← hp] at hbits
  exact (List.append_cancel_right hbits).symm

end Represents

section Ids

variable {c : HuffmanSource} {w w1 w2 : List Bool}

theorem nodeId_inj (hw1 : c.Inner w1) (hw2 : c.Inner w2)
    (h : ((decodeTree c.data).find w1).nodeId = ((decodeTree c.data).find w2).nodeId) : w1 = w2 := by
  have h1 := getElem?_decodeTree hw1
  rw [h, getElem?_decodeTree hw2, Option.some.injEq] at h1
  exact (decodeTree_represents c).find_inj hw1 h1.symm

/-- What `eos_padding` holds: the ids of the first seven nodes behind the root on the way to the end of the stream. -/
def eosPadding (c : HuffmanSource) : List ℕ :=
  (((c.bits eos).take 7).inits.map fun q => ((decodeTree c.data).find q).nodeId).tail

theorem inner_take_eos (heos : 7 < (c.bits eos).length) : c.Inner ((c.bits eos).take 7) := by
  refine ⟨eos, List.take_prefix _ _, fun heq => ?_⟩
  have := congrArg List.length heq
  rw [List.length_take] at this
  omega

/-- **The generator finds the padding.** -/
theorem generated_eosPadding {T : HuffmanTables} (heos : 7 < (c.bits eos).length) (hT : huffmanGen c.data = some T) :
    Generated c T (eosPadding c) := by
  obtain ⟨last, pos, decod, nodes, hlast, htraverse, h⟩ := generated_of_traverse hT
  -- the last entry is that of the end of the stream
  have hbits : last.msbBits = c.bits eos := by
    rw [HuffmanSource.data, List.finRange_succ_last, List.map_append, List.map_singleton, List.getLast?_concat] at hlast
    exact (Option.some.inj hlast) ▸ rfl
  have hin := (decodeTree_represents c).inner (PrefixCode.inner_nil h.ne_nil)
  rw [BTree.find_nil] at hin
  have hwalk := (decodeTree_represents c).traverseLoop_inner (w := []) (inner_take_eos heos)
  rw [hbits, BTree.traverse, if_neg hin.2] at htraverse
  rw [BTree.find_nil] at hwalk
  have hnodes := congrArg (fun o => o.map fun r => r.2.2) (htraverse.symm.trans hwalk)
  obtain rfl := Option.some.inj hnodes
  exact h

/-- **A state is accepted** when what is behind the last symbol can be padding. -/
theorem root_or_mem_eosPadding (hw : c.Inner w) (heos : 7 < (c.bits eos).length) :
    (decodeTree c.data).find w = decodeTree c.data ∨ ((decodeTree c.data).find w).nodeId ∈ eosPadding c ↔ c.Padding w := by
  have hinits : ((c.bits eos).take 7).inits = [] :: ((c.bits eos).take 7).inits.tail := by
    cases (c.bits eos).take 7 <;> rfl
  have hpad : c.Padding w ↔ w <+: (c.bits eos).take 7 := by
    rw [List.prefix_take_iff]
    rfl
  rw [hpad, eosPadding, ← List.map_tail, List.mem_map]
  constructor
  · rintro (hroot | ⟨q, hq, hid⟩)
    · have hnil : w = [] := (decodeTree_represents c).find_inj hw hroot
      rw [hnil]
      exact List.nil_prefix
    · have hpre := (List.mem_inits _ _).mp (List.mem_of_mem_tail hq)
      obtain ⟨p, hp⟩ := hpre
      have hinner := inner_take_eos heos
      rw [← hp] at hinner
      rw [← nodeId_inj hinner.of_append hw hid]
      exact ⟨p, hp⟩
  · intro hpre
    have hmem := (List.mem_inits _ _).mpr hpre
    rw [hinits] at hmem
    rcases List.mem_cons.mp hmem with rfl | hmem
    · exact .inl rfl
    · exact .inr ⟨w, hmem, rfl⟩

end Ids

/-! ### Decoding -/

/-- **What the decoder returns** when the walk of the code tree gives `s`: the symbols before the end of the stream are
put out, it is an error to complete that one, and otherwise the state is the node that is reached. -/
structure DecodesTo (c : HuffmanSource) (s : List (Fin 257) × List Bool) (out : ChulaBuffer)
    (r : Ret × HuffmanContext × ChulaBuffer) : Prop where
  bytes : r.2.2.bytes = out.bytes ++ (s.1.takeWhile (· ≠ eos)).map symbolOctet
  ret : r.1 = if eos ∈ s.1 then .error else .ok
  state : eos ∉ s.1 → r.2.1.state = ((decodeTree c.data).find s.2).nodeId
  accept : eos ∉ s.1 → (r.2.1.accept = true ↔ c.Padding s.2)

theorem takeWhile_ne_eos {l : List (Fin 257)} (h : eos ∉ l) : l.takeWhile (· ≠ eos) = l :=
  List.takeWhile_eq_self_iff.mpr fun _ ha => decide_eq_true fun heq => h (heq ▸ ha)

namespace DecodesTo

variable {c : HuffmanSource} {s s1 s2 : List (Fin 257) × List Bool} {out : ChulaBuffer}
variable {r r1 r2 : Ret × HuffmanContext × ChulaBuffer}

theorem congr_out {out' : ChulaBuffer} (h : DecodesTo c s out r) (hout : out'.bytes = out.bytes) : DecodesTo c s out' r :=
  ⟨by rw [h.bytes, hout], h.ret, h.state, h.accept⟩

/-- Nothing happens behind the end of the stream. -/
theorem stop (h : DecodesTo c s out r) (heos : eos ∈ s.1) (l : List (Fin 257)) (w : List Bool) :
    DecodesTo c (s.1 ++ l, w) out (.error, r.2) := by
  have hmem : eos ∈ s.1 ++ l := List.mem_append_left l heos
  refine ⟨?_, by rw [if_pos hmem], fun hnot => absurd hmem hnot, fun hnot => absurd hmem hnot⟩
  -- the symbols are cut off before it
  have hlen : (s.1.takeWhile (· ≠ eos)).length ≠ s.1.length := fun hlen => by
    have hself := (List.takeWhile_prefix _).eq_of_length hlen
    have hne := List.takeWhile_eq_self_iff.mp hself eos heos
    exact of_decide_eq_true hne rfl
  rw [List.takeWhile_append, if_neg hlen]
  exact h.bytes

/-- One part after the other. -/
theorem next (h1 : DecodesTo c s1 out r1) (heos : eos ∉ s1.1) (h2 : DecodesTo c s2 r1.2.2 r2) :
    DecodesTo c (s1.1 ++ s2.1, s2.2) out r2 := by
  have hmem : eos ∈ s1.1 ++ s2.1 ↔ eos ∈ s2.1 := by
    rw [List.mem_append]
    exact or_iff_right heos
  refine ⟨?_, ?_, fun hnot => h2.state (mt hmem.mpr hnot), fun hnot => h2.accept (mt hmem.mpr hnot)⟩
  · have hself := takeWhile_ne_eos heos
    rw [h2.bytes, h1.bytes, List.takeWhile_append, hself, if_pos rfl, List.map_append, List.append_assoc]
  · rw [h2.ret]
    simp only [hmem]

end DecodesTo

namespace Generated

variable {c : HuffmanSource} {T : HuffmanTables} {w : List Bool} {x : ℕ}

/-- Whether the state behind half an octet is accepted. -/
theorem decodeHalf_accept (h : Generated c T (eosPadding c)) (heos : 7 < (c.bits eos).length) (hw : c.Inner w)
    (hx : x < 16) (hmem : eos ∉ (c.walk w (combination x)).1) (accept : Bool) (out : ChulaBuffer) :
    (huffmanDecodeHalf T ⟨((decodeTree c.data).find w).nodeId, accept⟩ x out).2.1.accept = true ↔
      c.Padding (c.walk w (combination x)).2 := by
  have hentry := h.entry w x hw hx
  rw [decodeTableEntry, if_neg (getFirst_ne_eos hmem)] at hentry
  rw [huffmanDecodeHalf, hentry, ← root_or_mem_eosPadding (hw.walk h.ne_nil _) heos]
  dsimp only
  rw [if_neg (by omega)]
  dsimp only
  rw [decide_eq_true_iff, getFlags]
  split_ifs <;> simp_all

/-- **Half an octet.** -/
theorem decodeHalf_decodesTo (h : Generated c T (eosPadding c)) (heos : 7 < (c.bits eos).length) (hw : c.Inner w)
    (hx : x < 16) (accept : Bool) (out : ChulaBuffer) :
    DecodesTo c (c.walk w (combination x)) out
      (huffmanDecodeHalf T ⟨((decodeTree c.data).find w).nodeId, accept⟩ x out) := by
  have hone := PrefixCode.walk_length_le_one (w := w) (p := combination x) h.four_le le_rfl
  have hentry := h.entry w x hw hx
  by_cases hmem : eos ∈ (c.walk w (combination x)).1
  · -- it is the only symbol
    obtain ⟨a, ha⟩ := List.length_eq_one_iff.mp (le_antisymm hone (List.length_pos_of_mem hmem))
    rw [ha, List.mem_singleton] at hmem
    have hfirst : 256 = getFirst ((c.walk w (combination x)).1.map Fin.val) := by rw [ha, ← hmem]; rfl
    rw [decodeTableEntry, if_pos hfirst] at hentry
    rw [huffmanDecodeHalf, hentry]
    dsimp only
    rw [if_pos rfl]
    refine ⟨?_, ?_, ?_, ?_⟩
    · simp [ha, ← hmem]
    · simp [ha, ← hmem]
    · intro hnot
      simp [ha, ← hmem] at hnot
    · intro hnot
      simp [ha, ← hmem] at hnot
  · obtain ⟨accept', out', heq, hout⟩ := h.decodeHalf_eq hw hx hmem accept out
    rw [heq]
    refine ⟨?_, (if_neg hmem).symm, fun _ => rfl, ?_⟩
    · rw [hout, takeWhile_ne_eos hmem]
    · intro _
      have haccept := h.decodeHalf_accept heos hw hx hmem accept out
      rwa [heq] at haccept

/-- **A string.** -/
theorem decode_decodesTo (h : Generated c T (eosPadding c)) (heos : 7 < (c.bits eos).length) (input : List UInt8)
    (hw : c.Inner w) (accept : Bool) (haccept : accept = true ↔ c.Padding w) (out : ChulaBuffer) :
    DecodesTo c (c.walk w (input.flatMap octetBits)) out
      (hpackHuffmanDecode T input out ⟨((decodeTree c.data).find w).nodeId, accept⟩) := by
  induction input generalizing w accept out with
  | nil => exact ⟨by simp [hpackHuffmanDecode, PrefixCode.walk], rfl, fun _ => rfl, fun _ => haccept⟩
  | cons b input ih =>
    have hb := b.toNat_lt
    rw [List.flatMap_cons, octetBits, List.append_assoc, PrefixCode.walk_append, PrefixCode.walk_append,
      hpackHuffmanDecode]
    have hw1 := hw.walk h.ne_nil (combination (b.toNat >>> 4))
    have hw2 := hw1.walk h.ne_nil (combination (b.toNat &&& 0xf))
    have h1 := (h.decodeHalf_decodesTo heos hw (x := b.toNat >>> 4) (by rw [Nat.shiftRight_eq_div_pow]; omega) accept
      (chulaBufferEnsure out)).congr_out (chulaBufferEnsure_bytes out).symm
    rcases hhalf1 : huffmanDecodeHalf T ⟨((decodeTree c.data).find w).nodeId, accept⟩ (b.toNat >>> 4)
      (chulaBufferEnsure out) with ⟨ret1, ⟨state1, accept1⟩, out1⟩
    rw [hhalf1] at h1
    dsimp only
    by_cases heos1 : eos ∈ (c.walk w (combination (b.toNat >>> 4))).1
    · have hret1 : ret1 = .error := h1.ret.trans (if_pos heos1)
      rw [hret1, if_pos (show Ret.error ≠ .ok by decide)]
      exact h1.stop heos1 _ _
    have hret1 : ret1 = .ok := h1.ret.trans (if_neg heos1)
    have hstate1 := h1.state heos1
    dsimp only at hstate1
    rw [if_neg (not_not.mpr hret1), hstate1]
    -- the other half
    have h2 := h.decodeHalf_decodesTo heos hw1 (x := b.toNat &&& 0xf) (Nat.lt_succ_of_le Nat.and_le_right) accept1 out1
    rcases hhalf2 : huffmanDecodeHalf T ⟨((decodeTree c.data).find (c.walk w (combination (b.toNat >>> 4))).2).nodeId,
      accept1⟩ (b.toNat &&& 0xf) out1 with ⟨ret2, ⟨state2, accept2⟩, out2⟩
    rw [hhalf2] at h2
    dsimp only
    by_cases heos2 : eos ∈ (c.walk (c.walk w (combination (b.toNat >>> 4))).2 (combination (b.toNat &&& 0xf))).1
    · have hret2 : ret2 = .error := h2.ret.trans (if_pos heos2)
      rw [hret2, if_pos (show Ret.error ≠ .ok by decide)]
      exact h1.next heos1 (h2.stop heos2 _ _)
    · have hret2 : ret2 = .ok := h2.ret.trans (if_neg heos2)
      have hstate2 := h2.state heos2
      dsimp only at hstate2
      rw [if_neg (not_not.mpr hret2), hstate2]
      exact h1.next heos1 (h2.next heos2 (ih hw2 accept2 (h2.accept heos2) out2))

end Generated

/-- **The table decoder is the walk of the code tree**, one bit at a time. -/
theorem huffman_decode_walk (c : HuffmanSource) (hfour : ∀ a, 4 ≤ (c.bits a).length) (heos : 7 < (c.bits eos).length) :
    ∃ T, huffmanGen c.data = some T ∧ ∀ (input : List UInt8) (out : ChulaBuffer), ∃ ret context out',
      hpackHuffmanDecode T input out huffmanDecCtxInit = (ret, context, out') ∧
      out'.bytes = out.bytes ++ ((c.walk [] (input.flatMap octetBits)).1.takeWhile (· ≠ eos)).map symbolOctet ∧
      (ret = .error ↔ eos ∈ (c.walk [] (input.flatMap octetBits)).1) ∧
      (ret ≠ .error → ret = .ok ∧ (context.accept = true ↔
        (c.walk [] (input.flatMap octetBits)).2 <+: c.bits eos ∧ (c.walk [] (input.flatMap octetBits)).2.length ≤ 7)) := by
  obtain ⟨T, hT⟩ := huffmanGen_data c hfour
  refine ⟨T, hT, ?_⟩
  intro input out
  have h := generated_eosPadding heos hT
  have hdec := h.decode_decodesTo heos input (PrefixCode.inner_nil h.ne_nil) true
    (iff_of_true rfl ⟨List.nil_prefix, Nat.zero_le 7⟩) out
  rw [BTree.find_nil, nodeId_decodeTree h.ne_nil] at hdec
  refine ⟨_, _, _, rfl, hdec.bytes, ⟨?_, ?_⟩, ?_⟩
  · intro hret
    by_contra hmem
    have hok := hdec.ret.trans (if_neg hmem)
    exact Ret.noConfusion (hret.symm.trans hok)
  · intro hmem
    exact hdec.ret.trans (if_pos hmem)
  · intro hret
    have hmem : eos ∉ (c.walk [] (input.flatMap octetBits)).1 := fun hmem => hret (hdec.ret.trans (if_pos hmem))
    exact ⟨hdec.ret.trans (if_neg hmem), hdec.accept hmem⟩

theorem huffman_decode_walk_octet :
    ∃ T context out, huffmanGen byteCode.data = some T ∧
      hpackHuffmanDecode T [97] chulaBufferInit huffmanDecCtxInit = (.ok, context, out) ∧ out.bytes = [97] ∧
      context.accept = true := by
  obtain ⟨T, hT, hall⟩ := huffman_decode_walk byteCode (fun a => le_trans (by decide) (byteCode_bounds a).1) (byteCode_bounds eos).1
  obtain ⟨ret, context, out, hdec, hbytes, herr, haccept⟩ := hall [97] chulaBufferInit
  have hwalk : byteCode.walk [] ([97].flatMap octetBits) = ([97], []) :=
    PrefixCode.walk_bits (c := byteCode) (a := 97) (by decide)
  rw [hwalk] at hbytes herr haccept
  obtain ⟨rfl, hacc⟩ := haccept (mt herr.mp (by decide))
  exact ⟨T, context, out, hT, hdec, hbytes, hacc.mpr ⟨List.nil_prefix, Nat.zero_le 7⟩⟩

/-! ### The round trip -/

/-- **What is encoded is decoded again**, and what is behind the last symbol is accepted as padding. -/
theorem huffman_round_trip (c : HuffmanSource) (hlen : ∀ a, 5 ≤ (c.bits a).length ∧ (c.bits a).length ≤ 30)
    (heos : 7 < (c.bits eos).length) : ∃ T, huffmanGen c.data = some T ∧ ∀ (s : List UInt8) (p : ChulaBuffer), ∃ e,
      (hpackHuffmanEncode T s p).1 = .ok ∧ (hpackHuffmanEncode T s p).2.bytes = p.bytes ++ e ∧
      ∃ context out, hpackHuffmanDecode T e chulaBufferInit huffmanDecCtxInit = (.ok, context, out) ∧ out.bytes = s ∧
        context.accept = true := by
  obtain ⟨T, hT⟩ := huffmanGen_data c fun a => (Nat.le_succ 4).trans (hlen a).1
  refine ⟨T, hT, ?_⟩
  intro s p
  have h := generated_eosPadding heos hT
  obtain ⟨hret, hbytes⟩ := hpackHuffmanEncode_eq T s p
  obtain ⟨k, hk, hwalk⟩ := h.walk_huffmanOctets heos s
  have hnone := eos_not_mem_octetSymbol s
  have hdec := h.decode_decodesTo heos (huffmanOctets T s) (PrefixCode.inner_nil h.ne_nil) true
    (iff_of_true rfl ⟨List.nil_prefix, Nat.zero_le 7⟩) chulaBufferInit
  rw [BTree.find_nil, nodeId_decodeTree h.ne_nil, hwalk] at hdec
  have hpad : c.Padding ((c.bits eos).take k) := ⟨List.take_prefix _ _, by rw [List.length_take]; omega⟩
  have hout := hdec.bytes
  rw [takeWhile_ne_eos hnone] at hout
  refine ⟨huffmanOctets T s, hret, hbytes, _, _, Prod.ext (hdec.ret.trans (if_neg hnone)) rfl, ?_,
    (hdec.accept hnone).mpr hpad⟩
  rw [huffmanDecCtxInit, hout]
  simp [symbolOctet_octetSymbol, Function.comp_def]

theorem huffman_round_trip_octet :
    ∃ T e, huffmanGen byteCode.data = some T ∧ (hpackHuffmanEncode T [0, 255] (chulaBufferFake [7])).1 = .ok ∧
      (hpackHuffmanEncode T [0, 255] (chulaBufferFake [7])).2.bytes = [7] ++ e ∧
      ∃ context out, hpackHuffmanDecode T e chulaBufferInit huffmanDecCtxInit = (.ok, context, out) ∧
        out.bytes = [0, 255] ∧ context.accept = true := by
  have hlen : ∀ a, 5 ≤ (byteCode.bits a).length ∧ (byteCode.bits a).length ≤ 30 := fun a => by
    have := byteCode_bounds a
    omega
  obtain ⟨T, hT, hall⟩ := huffman_round_trip byteCode hlen (byteCode_bounds eos).1
  obtain ⟨e, he⟩ := hall [0, 255] (chulaBufferFake [7])
  exact ⟨T, e, hT, he⟩

end LibHpack
