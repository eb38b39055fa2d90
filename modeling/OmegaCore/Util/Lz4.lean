import OmegaCore.Util.Bytes

/-!
The LZ4 block format.  A block is a row of sequences, each with literals and a match that repeats at
least four earlier bytes, and ends in literals.  A match saves more than the length bytes that it
splits, so no block of a text is longer than the one without matches; and a text that repeats no four
bytes has no other block.
-/

namespace OmegaCore.Util.Lz4

open List

def minMatch : ℕ := 4
def runMask : ℕ := 15
def distanceMax : ℕ := 65535

/-- A run of literals and a match of `matchCode + minMatch` bytes. -/
structure Sequence where
  literals : Bytes
  offset : ℕ
  matchCode : ℕ

/-- What a length takes after the token. -/
def lengthBytes (n : ℕ) : Bytes :=
  if n < runMask then [] else replicate ((n - runMask) / 255) 255 ++ [UInt8.ofNat ((n - runMask) % 255)]

def token (litLength matchCode : ℕ) : UInt8 :=
  UInt8.ofNat (16 * min litLength runMask + min matchCode runMask)

def Sequence.bytes (s : Sequence) : Bytes :=
  [token s.literals.length s.matchCode] ++ (lengthBytes s.literals.length ++ (s.literals ++
    ([UInt8.ofNat s.offset, UInt8.ofNat (s.offset / 256)] ++ lengthBytes s.matchCode)))

def lastLiterals (literals : Bytes) : Bytes :=
  [token literals.length 0] ++ (lengthBytes literals.length ++ literals)

def block (sequences : List Sequence) (literals : Bytes) : Bytes :=
  sequences.flatMap Sequence.bytes ++ lastLiterals literals

/-- A match is copied byte by byte, so it may run into what it writes. -/
def copyMatch (offset : ℕ) : ℕ → Bytes → Bytes
  | 0, out => out
  | n + 1, out => copyMatch offset n (out ++ [out.getD (out.length - offset) 0])

def Sequence.expand (out : Bytes) (s : Sequence) : Option Bytes :=
  let out := out ++ s.literals
  if 0 < s.offset ∧ s.offset ≤ distanceMax ∧ s.offset ≤ out.length then
    some (copyMatch s.offset (s.matchCode + minMatch) out)
  else none

/-- The bytes that a block stands for. -/
def expand (sequences : List Sequence) (literals : Bytes) : Option Bytes :=
  (sequences.foldlM Sequence.expand []).map (· ++ literals)

def IsBlock (text data : Bytes) : Prop :=
  ∃ sequences literals, block sequences literals = data ∧ expand sequences literals = some text

theorem isBlock_literals (text : Bytes) : IsBlock text (lastLiterals text) :=
  ⟨[], text, rfl, rfl⟩

/-! ### Lengths -/

/-- The length of a text without matches. -/
def literalLength (n : ℕ) : ℕ :=
  n + 1 + (lengthBytes n).length

theorem length_lengthBytes (n : ℕ) : (lengthBytes n).length = if n < 15 then 0 else (n - 15) / 255 + 1 := by
  unfold lengthBytes runMask
  split_ifs
  · rfl
  · simp

theorem length_lastLiterals (literals : Bytes) : (lastLiterals literals).length = literalLength literals.length := by
  simp [lastLiterals, literalLength]
  omega

theorem length_bytes (s : Sequence) : s.bytes.length =
    3 + s.literals.length + (lengthBytes s.literals.length).length + (lengthBytes s.matchCode).length := by
  simp [Sequence.bytes]
  omega

/-- A sequence in front is shorter than its bytes as literals. -/
theorem literalLength_add (l m n : ℕ) : 3 + l + (lengthBytes l).length + (lengthBytes m).length + literalLength n ≤
    literalLength (l + (m + minMatch) + n) := by
  simp only [literalLength, length_lengthBytes, minMatch]
  split_ifs <;> omega

theorem copyMatch_eq_append (offset n : ℕ) (out : Bytes) : ∃ copied, copyMatch offset n out = out ++ copied ∧
    copied.length = n := by
  induction n generalizing out with
  | zero => exact ⟨[], by simp [copyMatch], rfl⟩
  | succ n ih =>
    obtain ⟨copied, heq, hlen⟩ := ih (out ++ [out.getD (out.length - offset) 0])
    exact ⟨[out.getD (out.length - offset) 0] ++ copied, by rw [copyMatch, heq, append_assoc], by simp [hlen]⟩

theorem expand_eq_append {s : Sequence} {out out' : Bytes} (h : s.expand out = some out') :
    ∃ copied, out' = out ++ (s.literals ++ copied) ∧ copied.length = s.matchCode + minMatch := by
  simp only [Sequence.expand] at h
  split_ifs at h
  obtain ⟨copied, heq, hlen⟩ := copyMatch_eq_append s.offset (s.matchCode + minMatch) (out ++ s.literals)
  cases h
  exact ⟨copied, by rw [heq, append_assoc], hlen⟩

/-- What is in front of a run stays there. -/
theorem foldlM_expand {sequences : List Sequence} {out out' : Bytes}
    (h : sequences.foldlM Sequence.expand out = some out') (literals : Bytes) :
    ∃ rest, out' ++ literals = out ++ rest ∧ (block sequences literals).length ≤ literalLength rest.length := by
  induction sequences generalizing out with
  | nil =>
    cases h
    exact ⟨literals, rfl, (length_lastLiterals literals).le⟩
  | cons s sequences ih =>
    rw [foldlM_cons] at h
    obtain ⟨out₁, hone, hrest⟩ := Option.bind_eq_some_iff.mp h
    obtain ⟨rest, heq, hlen⟩ := ih hrest
    obtain ⟨copied, rfl, hcopied⟩ := expand_eq_append hone
    refine ⟨s.literals ++ copied ++ rest, by simp [heq], ?_⟩
    have hadd := literalLength_add s.literals.length s.matchCode rest.length
    rw [← hcopied] at hadd
    have hblock : (block (s :: sequences) literals).length = s.bytes.length + (block sequences literals).length := by
      simp [block]
    rw [hblock, length_bytes, length_append, length_append]
    omega

/-- No block is longer than the literals. -/
theorem IsBlock.length_le {text data : Bytes} (h : IsBlock text data) : data.length ≤ literalLength text.length := by
  obtain ⟨sequences, literals, rfl, hexpand⟩ := h
  obtain ⟨out, hrun, rfl⟩ := Option.map_eq_some_iff.mp hexpand
  obtain ⟨rest, heq, hlen⟩ := foldlM_expand hrun literals
  rw [nil_append] at heq
  rw [heq]
  exact hlen

/-! ### Texts without a match -/

/-- Four bytes come again within the distance of a match. -/
def Repeats (text : Bytes) : Prop :=
  ∃ i j, i < j ∧ j ≤ i + distanceMax ∧ j + minMatch ≤ text.length ∧ ∀ k < minMatch, text[i + k]? = text[j + k]?

theorem copyMatch_repeats {offset : ℕ} (hoffset : 0 < offset) (n : ℕ) (out : Bytes) (hle : offset ≤ out.length) :
    ∀ k < n, (copyMatch offset n out)[out.length - offset + k]? = (copyMatch offset n out)[out.length + k]? := by
  induction n generalizing out with
  | zero => simp
  | succ n ih =>
    intro k hk
    rw [copyMatch]
    cases k with
    | zero =>
      obtain ⟨copied, heq, -⟩ := copyMatch_eq_append offset n (out ++ [out.getD (out.length - offset) 0])
      have hlt : out.length - offset < out.length := by omega
      rw [heq, append_assoc, Nat.add_zero, Nat.add_zero, getElem?_append_left hlt, getElem?_append_right le_rfl]
      simp [getD, getElem?_eq_getElem hlt]
    | succ k =>
      have hnext := ih (out ++ [out.getD (out.length - offset) 0]) (by rw [length_append]; omega) k (by omega)
      rw [length_append, length_singleton] at hnext
      rw [show out.length - offset + (k + 1) = out.length + 1 - offset + k by omega,
        show out.length + (k + 1) = out.length + 1 + k by omega]
      exact hnext

theorem Repeats.append {text : Bytes} (h : Repeats text) (rest : Bytes) : Repeats (text ++ rest) := by
  obtain ⟨i, j, hij, hdist, hlen, heq⟩ := h
  refine ⟨i, j, hij, hdist, by rw [length_append]; omega, fun k hk => ?_⟩
  rw [getElem?_append_left (by omega), getElem?_append_left (by omega)]
  exact heq k hk

theorem repeats_of_expand {s : Sequence} {out out' : Bytes} (h : s.expand out = some out') : Repeats out' := by
  simp only [Sequence.expand] at h
  split_ifs at h with hoffset
  obtain ⟨hpos, hdist, hle⟩ := hoffset
  cases h
  obtain ⟨copied, heq, hlen⟩ := copyMatch_eq_append s.offset (s.matchCode + minMatch) (out ++ s.literals)
  refine ⟨(out ++ s.literals).length - s.offset, (out ++ s.literals).length, by omega, by omega, ?_, fun k hk => ?_⟩
  · have hlength := congrArg length heq
    rw [length_append, hlen] at hlength
    omega
  · exact copyMatch_repeats hpos _ _ hle k (by omega)

/-- The block of a text that repeats nothing is its literals. -/
theorem IsBlock.length_of_not_repeats {text data : Bytes} (h : IsBlock text data) (hnew : ¬ Repeats text) :
    data.length = literalLength text.length := by
  obtain ⟨sequences, literals, rfl, hexpand⟩ := h
  cases sequences with
  | nil =>
    cases hexpand
    exact length_lastLiterals literals
  | cons s sequences =>
    obtain ⟨out, hrun, rfl⟩ := Option.map_eq_some_iff.mp hexpand
    rw [foldlM_cons] at hrun
    obtain ⟨out₁, hone, hrest⟩ := Option.bind_eq_some_iff.mp hrun
    obtain ⟨rest, heq, -⟩ := foldlM_expand hrest literals
    exact absurd (heq ▸ (repeats_of_expand hone).append rest) hnew

/-- Groups of two digits and a mark, which count up. -/
def countingByte (i : ℕ) : ℕ :=
  if i % 3 = 0 then i / 765 % 255 else if i % 3 = 1 then i / 3 % 255 else 255

/-- A text of any length that cannot be compressed. -/
def countingText (n : ℕ) : Bytes :=
  (range n).map fun i => UInt8.ofNat (countingByte i)

@[simp]
theorem length_countingText (n : ℕ) : (countingText n).length = n := by
  simp [countingText]

theorem countingByte_lt (i : ℕ) : countingByte i < 256 := by
  unfold countingByte
  split_ifs <;> omega

theorem countingByte_eq_mark {i : ℕ} : countingByte i = 255 ↔ i % 3 = 2 := by
  unfold countingByte
  split_ifs <;> omega

theorem countingByte_digits (g : ℕ) : countingByte (3 * g) = g / 255 % 255 ∧ countingByte (3 * g + 1) = g % 255 := by
  unfold countingByte
  constructor
  · rw [if_pos (by omega)]
    omega
  · rw [if_neg (by omega), if_pos (by omega)]
    omega

/-- The mark shows where a group starts, and four bytes hold the digits of one. -/
theorem lt_of_countingByte {i j : ℕ} (hij : i < j) (h : ∀ k < 4, countingByte (i + k) = countingByte (j + k)) :
    i + distanceMax < j := by
  have hmod : j % 3 = i % 3 := by
    have hmark := countingByte_eq_mark (i := i + (2 - i % 3)).mpr (by omega)
    rw [h _ (by omega), countingByte_eq_mark] at hmark
    omega
  obtain ⟨d, g, hd, hg⟩ : ∃ d g, d < 3 ∧ i + d = 3 * g := ⟨(3 - i % 3) % 3, (i + (3 - i % 3) % 3) / 3, by omega, by omega⟩
  obtain ⟨g', hg'⟩ : ∃ g', j + d = 3 * g' := ⟨(j + d) / 3, by omega⟩
  have hhigh := h d (by omega)
  have hlow := h (d + 1) (by omega)
  rw [← Nat.add_assoc, ← Nat.add_assoc, hg, hg', (countingByte_digits g).2, (countingByte_digits g').2] at hlow
  rw [hg, hg', (countingByte_digits g).1, (countingByte_digits g').1] at hhigh
  unfold distanceMax
  omega

theorem not_repeats_countingText (n : ℕ) : ¬ Repeats (countingText n) := by
  rintro ⟨i, j, hij, hdist, hlen, heq⟩
  rw [length_countingText] at hlen
  have hbytes : ∀ k < 4, countingByte (i + k) = countingByte (j + k) := by
    intro k hk
    have hbyte := heq k hk
    unfold minMatch at hlen
    simp only [countingText, getElem?_map, getElem?_range (show i + k < n by omega),
      getElem?_range (show j + k < n by omega), Option.map_some, Option.some.injEq] at hbyte
    have hnat := congrArg UInt8.toNat hbyte
    rwa [UInt8.toNat_ofNat_of_lt' (countingByte_lt _), UInt8.toNat_ofNat_of_lt' (countingByte_lt _)] at hnat
  have := lt_of_countingByte hij hbytes
  omega

end OmegaCore.Util.Lz4
