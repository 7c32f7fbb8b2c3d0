import Mathlib.Tactic

/-!
# Thirty-two bit words in memory and on the wire

A word is a natural number, read modulo `2 ^ 32`. The host stores its least
significant byte first; the network sends the most significant byte first, so
the conversion between the two orders is a byte swap. `toInt32` reads a word
as a signed `int`.
-/
namespace NetworkPrograms

abbrev Bytes := List UInt8

namespace Words

/-- The four bytes of a word as the (little-endian) host keeps them. -/
def hostBytes (w : ℕ) : Bytes :=
  [UInt8.ofNat w, UInt8.ofNat (w / 2 ^ 8), UInt8.ofNat (w / 2 ^ 16), UInt8.ofNat (w / 2 ^ 24)]

/-- The word that a host reads from a byte string, least significant byte first. -/
def hostWord (bs : Bytes) : ℕ := bs.foldr (fun b acc => b.toNat + 2 ^ 8 * acc) 0

/-- Exchange of the two byte orders. -/
def byteSwap (w : ℕ) : ℕ := hostWord (hostBytes w).reverse

def htonl (w : ℕ) : ℕ := byteSwap w

def ntohl (w : ℕ) : ℕ := byteSwap w

/-- The four bytes of a word, most significant byte first. -/
def netBytes (w : ℕ) : Bytes := (hostBytes w).reverse

def toInt32 (w : ℕ) : ℤ := if w < 2 ^ 31 then w else (w : ℤ) - 2 ^ 32

def ofInt32 (i : ℤ) : ℕ := (i % 2 ^ 32).toNat

@[simp] theorem length_hostBytes (w : ℕ) : (hostBytes w).length = 4 := rfl

@[simp] theorem length_netBytes (w : ℕ) : (netBytes w).length = 4 := rfl

theorem netBytes_mod (w : ℕ) : netBytes (w % 2 ^ 32) = netBytes w := by
  simp only [netBytes, hostBytes, List.reverse_cons, List.reverse_nil, List.nil_append,
    List.cons_append, List.cons.injEq, and_true]
  refine ⟨?_, ?_, ?_, ?_⟩ <;> apply UInt8.toNat_inj.mp <;> simp only [UInt8.toNat_ofNat'] <;> omega

theorem hostWord_hostBytes (w : ℕ) : hostWord (hostBytes w) = w % 2 ^ 32 := by
  simp only [hostWord, hostBytes, List.foldr_cons, List.foldr_nil, UInt8.toNat_ofNat']
  omega

theorem exists_four_bytes (bs : Bytes) (h : bs.length = 4) : ∃ a b c d, bs = [a, b, c, d] := by
  match bs, h with
  | [a, b, c, d], _ => exact ⟨a, b, c, d, rfl⟩

theorem hostWord_lt (bs : Bytes) (h : bs.length = 4) : hostWord bs < 2 ^ 32 := by
  obtain ⟨a, b, c, d, rfl⟩ := exists_four_bytes bs h
  have ha := a.toNat_lt
  have hb := b.toNat_lt
  have hc := c.toNat_lt
  have hd := d.toNat_lt
  simp only [hostWord, List.foldr_cons, List.foldr_nil]
  omega

theorem hostBytes_hostWord (bs : Bytes) (h : bs.length = 4) : hostBytes (hostWord bs) = bs := by
  obtain ⟨a, b, c, d, rfl⟩ := exists_four_bytes bs h
  have ha := a.toNat_lt
  have hb := b.toNat_lt
  have hc := c.toNat_lt
  have hd := d.toNat_lt
  simp only [hostWord, hostBytes, List.foldr_cons, List.foldr_nil, List.cons.injEq, and_true]
  refine ⟨?_, ?_, ?_, ?_⟩ <;> apply UInt8.toNat_inj.mp <;>
    simp only [UInt8.toNat_ofNat'] <;> omega

theorem hostBytes_htonl (w : ℕ) : hostBytes (htonl w) = netBytes w :=
  hostBytes_hostWord _ (by simp)

theorem ntohl_hostWord_netBytes (w : ℕ) : ntohl (hostWord (netBytes w)) = w % 2 ^ 32 := by
  unfold ntohl byteSwap
  rw [hostBytes_hostWord _ (length_netBytes w), netBytes, List.reverse_reverse, hostWord_hostBytes]

theorem netBytes_ntohl_hostWord (bs : Bytes) (h : bs.length = 4) :
    netBytes (ntohl (hostWord bs)) = bs := by
  unfold ntohl byteSwap netBytes
  rw [hostBytes_hostWord _ (by simp), hostBytes_hostWord _ h, List.reverse_reverse]

theorem ntohl_lt (w : ℕ) : ntohl w < 2 ^ 32 := hostWord_lt _ (by simp)

theorem toInt32_of_lt {n : ℕ} (h : n < 2 ^ 31) : toInt32 n = n := if_pos h

theorem ofInt32_natCast {n : ℕ} (h : n < 2 ^ 31) : ofInt32 n = n := by
  unfold ofInt32
  omega

theorem toInt32_nonneg {w : ℕ} (hw : w < 2 ^ 32) (h : 0 ≤ toInt32 w) : toInt32 w = w := by
  unfold toInt32 at h ⊢
  split_ifs at h ⊢ <;> omega

end Words
end NetworkPrograms
