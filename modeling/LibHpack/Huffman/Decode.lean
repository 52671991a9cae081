import LibHpack.Huffman.Tree

/-!
# LibHpack.Huffman.Decode — the decoder on the generated table

A state of the decoder is the id of an inner node, so it stands for a proper prefix of a codeword.  Half an octet takes
it along four edges; a codeword has at least four bits, so this completes one symbol at most.  A string without the end
of the stream is decoded as the code tree is walked, bit by bit (`hpackHuffmanDecode_eq`).
-/

namespace LibHpack

/-- The end of the stream. -/
abbrev eos : Fin 257 := 256

/-- The octet of a symbol. -/
def symbolOctet (a : Fin 257) : UInt8 := UInt8.ofNat a

/-- The bits of an octet, the first half first. -/
def octetBits (b : UInt8) : List Bool := combination (b.toNat >>> 4) ++ combination (b.toNat &&& 0xf)

theorem getElem?_of_mapM {α β : Type*} {f : α → Option β} {l : List α} {rows : List β} (h : l.mapM f = some rows)
    {i : ℕ} {a : α} (ha : l[i]? = some a) : ∃ b, f a = some b ∧ rows[i]? = some b := by
  induction l generalizing rows i with
  | nil => simp at ha
  | cons a' l ih =>
    rw [List.mapM_cons] at h
    obtain ⟨b, hb, h⟩ := Option.bind_eq_some_iff.mp h
    obtain ⟨bs, hbs, h⟩ := Option.bind_eq_some_iff.mp h
    cases h
    cases i with
    | zero =>
      cases ha
      exact ⟨b, hb, rfl⟩
    | succ i => exact ih hbs ha

theorem ne_nil_of_four_le {c : HuffmanSource} (hfour : ∀ a, 4 ≤ (c.bits a).length) (a : Fin 257) : c.bits a ≠ [] :=
  List.ne_nil_of_length_pos (by have := hfour a; omega)

/-- The table of the code: its rows and the ids that `eos_padding` holds. -/
structure Generated (c : HuffmanSource) (T : HuffmanTables) (padding : List ℕ) : Prop where
  four_le : ∀ a, 4 ≤ (c.bits a).length
  code : ∀ a : Fin 257, T.hpackHuffman a = ⟨(c.bits a).length, bitsToNat (c.bits a)⟩
  entry : ∀ w x, c.Inner w → x < 16 → T.decodeTable ((decodeTree c.data).find w).nodeId x =
    decodeTableEntry (decodeTree c.data) padding ((decodeTree c.data).find (c.walk w (combination x)).2)
      ((c.walk w (combination x)).1.map Fin.val)
  nodeId_lt : ∀ w, c.Inner w → ((decodeTree c.data).find w).nodeId < 256

/-- **What `huffman-gen.py` renders**; `eos_padding` is what the traversal of the first bits of the last entry visits,
without the root. -/
theorem generated_of_traverse {c : HuffmanSource} {T : HuffmanTables} (hT : huffmanGen c.data = some T) :
    ∃ last pos decod nodes, c.data.getLast? = some last ∧
      (decodeTree c.data).traverse (decodeTree c.data) (last.msbBits.take 7) = some (pos, decod, nodes) ∧
      Generated c T nodes.tail := by
  obtain ⟨rows, hrows, hT⟩ := Option.bind_eq_some_iff.mp hT
  cases hT
  unfold genDecodeTable at hrows
  split_ifs at hrows with hmin
  obtain ⟨last, hlast, hrows⟩ := Option.bind_eq_some_iff.mp hrows
  obtain ⟨⟨pos, decod, nodes⟩, hpadding, hrows⟩ := Option.bind_eq_some_iff.mp hrows
  have h := decodeTree_represents c
  have hfour : ∀ a, 4 ≤ (c.bits a).length := fun a => by
    by_contra hlt
    exact hmin (List.any_eq_true.mpr ⟨_, data_mem c a, by simpa using hlt⟩)
  have hne := ne_nil_of_four_le hfour
  refine ⟨last, pos, decod, nodes, hlast, hpadding, hfour, fun a => ?_, fun w x hw hx => ?_, fun w hw => ?_⟩
  · simp [genHpackHuffman, HuffmanSource.data, List.getD]
  · obtain ⟨row, hrow, hget⟩ := getElem?_of_mapM hrows (getElem?_decodeTree hw)
    obtain ⟨e, he, hget'⟩ := getElem?_of_mapM hrow (List.getElem?_range hx)
    obtain ⟨visited, htraverse⟩ := h.traverse_eq hne hw (combination x)
    rw [htraverse] at he
    cases he
    simp only [List.getD, hget, Option.getD_some, hget']
  · obtain ⟨hlt, -⟩ := List.getElem?_eq_some_iff.mp (getElem?_decodeTree hw)
    exact hlt.trans_le h.getNodes_length_le

theorem generated_of_huffmanGen {c : HuffmanSource} {T : HuffmanTables} (hT : huffmanGen c.data = some T) :
    ∃ padding, Generated c T padding := by
  obtain ⟨_, _, _, nodes, -, -, h⟩ := generated_of_traverse hT
  exact ⟨nodes.tail, h⟩

theorem mapM_eq_some {α β : Type*} {f : α → Option β} {l : List α} (h : ∀ a ∈ l, ∃ b, f a = some b) :
    ∃ rows, l.mapM f = some rows := by
  induction l with
  | nil => exact ⟨[], rfl⟩
  | cons a l ih =>
    obtain ⟨b, hb⟩ := h a List.mem_cons_self
    obtain ⟨rows, hrows⟩ := ih fun a' ha' => h a' (List.mem_cons_of_mem a ha')
    exact ⟨b :: rows, by rw [List.mapM_cons, hb, hrows]; rfl⟩

/-- **The script renders tables** for every code without codewords of less than four bits. -/
theorem huffmanGen_data (c : HuffmanSource) (hfour : ∀ a, 4 ≤ (c.bits a).length) : ∃ T, huffmanGen c.data = some T := by
  have h := decodeTree_represents c
  have hne := ne_nil_of_four_le hfour
  have hmin : ¬ (c.data.any fun d => d.bitLen < 4) = true := fun hany => by
    obtain ⟨d, hd, hlt⟩ := List.any_eq_true.mp hany
    obtain ⟨a, -, -, hlen⟩ := mem_data hd
    have := hfour a
    rw [hlen] at hlt
    simp only [decide_eq_true_eq] at hlt
    omega
  have hlast : c.data.getLast? = some (c.data.getLast (List.ne_nil_of_mem (data_mem c 0))) :=
    List.getLast?_eq_some_getLast _
  obtain ⟨nodes, hpadding⟩ := h.traverse_eq hne (PrefixCode.inner_nil hne)
    ((c.data.getLast (List.ne_nil_of_mem (data_mem c 0))).msbBits.take 7)
  rw [BTree.find_nil] at hpadding
  obtain ⟨rows, hrows⟩ : ∃ rows, genDecodeTable c.data = some rows := by
    rw [genDecodeTable, if_neg hmin, hlast]
    simp only [Option.bind_eq_bind, Option.bind_some, hpadding]
    -- from every row all half octets lead to nodes
    refine mapM_eq_some fun n hn => mapM_eq_some fun x _ => ?_
    obtain ⟨w, rfl, hp, hl⟩ := BTree.find_of_mem_getNodes hn
    obtain ⟨nodes', htraverse⟩ := h.traverse_eq hne (h.inner_of_not_leaf hp hl) (combination x)
    exact ⟨_, by rw [htraverse]; rfl⟩
  exact ⟨_, by rw [huffmanGen, hrows]; rfl⟩

namespace Generated

variable {c : HuffmanSource} {T : HuffmanTables} {padding : List ℕ} {w : List Bool} {x : ℕ}

theorem ne_nil (h : Generated c T padding) (a : Fin 257) : c.bits a ≠ [] := ne_nil_of_four_le h.four_le a

/-- An entry without the end of the stream is no error. -/
theorem getFirst_ne_eos {l : List (Fin 257)} (h : eos ∉ l) : 256 ≠ getFirst (l.map Fin.val) := by
  cases l with
  | nil => decide
  | cons a l =>
    intro h256
    exact h (List.mem_cons.mpr (.inl (Fin.ext h256)))

/-- The state of the decoder at a proper prefix of a codeword. -/
theorem entry_eq (h : Generated c T padding) (hw : c.Inner w) (hx : x < 16)
    (heos : eos ∉ (c.walk w (combination x)).1) :
    ∃ flags, T.decodeTable ((decodeTree c.data).find w).nodeId x =
        ⟨((decodeTree c.data).find (c.walk w (combination x)).2).nodeId, flags,
          UInt8.ofNat (getFirst ((c.walk w (combination x)).1.map Fin.val))⟩ ∧
      (flags &&& 2 ≠ 0 ↔ (c.walk w (combination x)).1 ≠ []) := by
  have hentry := h.entry w x hw hx
  rw [decodeTableEntry, if_neg (getFirst_ne_eos heos)] at hentry
  refine ⟨_, hentry, ?_⟩
  simp only [getFlags, List.length_map, ne_eq, List.length_eq_zero_iff]
  split_ifs <;> simp_all

/-- **Half an octet** walks along four edges. -/
theorem decodeHalf_eq (h : Generated c T padding) (hw : c.Inner w) (hx : x < 16)
    (heos : eos ∉ (c.walk w (combination x)).1) (accept : Bool) (out : ChulaBuffer) :
    ∃ accept' out', huffmanDecodeHalf T ⟨((decodeTree c.data).find w).nodeId, accept⟩ x out =
        (.ok, ⟨((decodeTree c.data).find (c.walk w (combination x)).2).nodeId, accept'⟩, out') ∧
      out'.bytes = out.bytes ++ (c.walk w (combination x)).1.map symbolOctet := by
  obtain ⟨flags, hentry, hflags⟩ := h.entry_eq hw hx heos
  have hlt := h.nodeId_lt _ (hw.walk h.ne_nil (combination x))
  have hone := PrefixCode.walk_length_le_one (w := w) (p := combination x) h.four_le le_rfl
  have hstate : ((((decodeTree c.data).find (c.walk w (combination x)).2).nodeId : ℤ) % 256).toNat =
      ((decodeTree c.data).find (c.walk w (combination x)).2).nodeId := by omega
  refine ⟨decide (flags &&& 1 ≠ 0), if flags &&& 2 ≠ 0 then
    chulaBufferAddChar out (UInt8.ofNat (getFirst ((c.walk w (combination x)).1.map Fin.val))) else out, ?_, ?_⟩
  · rw [huffmanDecodeHalf, hentry]
    dsimp only
    rw [if_neg (by omega), hstate]
  · -- there is at most one symbol
    cases hd : (c.walk w (combination x)).1 with
    | nil =>
      rw [hd] at hflags
      rw [if_neg fun h2 => hflags.mp h2 rfl]
      simp
    | cons a l =>
      rw [hd] at hflags hone
      obtain rfl : l = [] := List.length_eq_zero_iff.mp (by simpa using hone)
      rw [if_pos (hflags.mpr (List.cons_ne_nil a []))]
      rfl

/-- **A string without the end of the stream** is decoded bit by bit. -/
theorem hpackHuffmanDecode_eq (h : Generated c T padding) (input : List UInt8) (hw : c.Inner w)
    (heos : eos ∉ (c.walk w (input.flatMap octetBits)).1) (accept : Bool) (out : ChulaBuffer) :
    ∃ accept' out', hpackHuffmanDecode T input out ⟨((decodeTree c.data).find w).nodeId, accept⟩ =
        (.ok, ⟨((decodeTree c.data).find (c.walk w (input.flatMap octetBits)).2).nodeId, accept'⟩, out') ∧
      out'.bytes = out.bytes ++ (c.walk w (input.flatMap octetBits)).1.map symbolOctet := by
  induction input generalizing w accept out with
  | nil => exact ⟨accept, out, rfl, by simp [PrefixCode.walk]⟩
  | cons b input ih =>
    have hb := b.toNat_lt
    rw [List.flatMap_cons, octetBits, List.append_assoc, PrefixCode.walk_append, PrefixCode.walk_append] at heos ⊢
    simp only [List.mem_append, not_or] at heos
    obtain ⟨heos1, heos2, heos3⟩ := heos
    have hw1 := hw.walk h.ne_nil (combination (b.toNat >>> 4))
    have hw2 := hw1.walk h.ne_nil (combination (b.toNat &&& 0xf))
    obtain ⟨acc1, out1, heq1, hout1⟩ := h.decodeHalf_eq hw (x := b.toNat >>> 4)
      (by rw [Nat.shiftRight_eq_div_pow]; omega) heos1 accept (chulaBufferEnsure out)
    obtain ⟨acc2, out2, heq2, hout2⟩ := h.decodeHalf_eq hw1 (x := b.toNat &&& 0xf)
      (Nat.lt_succ_of_le Nat.and_le_right) heos2 acc1 out1
    obtain ⟨acc3, out3, heq3, hout3⟩ := ih hw2 heos3 acc2 out2
    refine ⟨acc3, out3, ?_, ?_⟩
    · rw [hpackHuffmanDecode]
      simp only [heq1, heq2, heq3, ne_eq, not_true_eq_false, if_false]
    · rw [hout3, hout2, hout1]
      simp

end Generated

end LibHpack
