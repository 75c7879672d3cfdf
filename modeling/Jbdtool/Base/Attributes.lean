import Jbdtool.Base.CString
import Jbdtool.Base.Memory
import Mathlib.Tactic.Ring

/-! Attributes in memory, each with its length and type before its content and at a multiple
of four bytes. A walk over a block of them steps from one length to the next. -/
namespace Attributes
open CString Mem

def align (n : Nat) : Nat := (n + 3) / 4 * 4

def word (n : Nat) : Bytes := [UInt8.ofNat n,UInt8.ofNat (n / 256)]

def readWord (mem : Mem UInt8) (a : Nat) : Nat := (mem a).toNat + 256 * (mem (a + 1)).toNat

structure Attribute where
  type : Nat
  payload : Bytes
  typed : type < 65536
  short : payload.length + 4 < 65536

def header (a : Attribute) : Bytes := word (a.payload.length + 4) ++ word a.type

def padding (n : Nat) : Bytes := List.replicate (align n - n) 0

def Attribute.bytes (a : Attribute) : Bytes := header a ++ (a.payload ++ padding (a.payload.length + 4))

def encode (as : List Attribute) : Bytes := as.flatMap Attribute.bytes

/-- These bytes are in memory from here on. -/
def Holds (mem : Mem UInt8) (base : Nat) (bs : Bytes) : Prop := slice mem base bs.length = bs

/-- An attribute that is inside the block. -/
def Whole (mem : Mem UInt8) (a len : Nat) : Prop := 4 ≤ len ∧ 4 ≤ readWord mem a ∧ readWord mem a ≤ len

instance (mem : Mem UInt8) (a len : Nat) : Decidable (Whole mem a len) := by
  unfold Whole
  infer_instance

/-- Where the attributes of a block are, up to the first that is not inside it. -/
def walk (mem : Mem UInt8) (a len : Nat) : List Nat :=
  if _whole : Whole mem a len then a::walk mem (a + align (readWord mem a)) (len - align (readWord mem a)) else []
termination_by len
decreasing_by
  obtain ⟨some,least,-⟩ := _whole
  unfold align
  omega

/-- Where they are when they follow each other. -/
def places (base : Nat) : List Attribute → List Nat
  | [] => []
  | a::as => base::places (base + a.bytes.length) as

theorem align_ge (n : Nat) : n ≤ align n := by
  unfold align
  omega

theorem align_mod (n : Nat) : align n % 4 = 0 := by
  unfold align
  omega

theorem align_of_mod (n : Nat) (aligned : n % 4 = 0) : align n = n := by
  unfold align
  omega

@[simp] theorem header_length (a : Attribute) : (header a).length = 4 := rfl

theorem bytes_length (a : Attribute) : a.bytes.length = align (a.payload.length + 4) := by
  have := align_ge (a.payload.length + 4)
  simp only [Attribute.bytes,padding,List.length_append,List.length_replicate,header_length]
  omega

@[simp] theorem encode_cons (a : Attribute) (as : List Attribute) : encode (a::as) = a.bytes ++ encode as := rfl

theorem encode_append (as bs : List Attribute) : encode (as ++ bs) = encode as ++ encode bs := List.flatMap_append

theorem encode_aligned (as : List Attribute) : (encode as).length % 4 = 0 := by
  induction as with
  | nil => rfl
  | cons a as ih =>
    have := align_mod (a.payload.length + 4)
    rw [encode_cons,List.length_append,bytes_length]
    omega

section
variable {mem : Mem UInt8} {base : Nat}

theorem holds_append (xs ys : Bytes) : Holds mem base (xs ++ ys) ↔ Holds mem base xs ∧ Holds mem (base + xs.length) ys := by
  unfold Holds
  rw [List.length_append,slice_append]
  exact ⟨fun same => List.append_inj same (slice_length mem base _),fun ⟨first,rest⟩ => by rw [first,rest]⟩

private theorem holds_byte (bs : Bytes) (holds : Holds mem base bs) (i : Nat) (inside : i < bs.length) :
    mem (base + i) = bs[i] := by
  have cell := slice_get mem base bs.length i (by rwa [slice_length])
  rw [← cell]
  exact List.getElem_of_eq holds _

theorem readWord_word (n : Nat) (small : n < 65536) (holds : Holds mem base (word n)) : readWord mem base = n := by
  have low := holds_byte (word n) holds 0 (by simp [word])
  have high := holds_byte (word n) holds 1 (by simp [word])
  simp only [word,List.getElem_cons_zero,List.getElem_cons_succ,Nat.add_zero] at low high
  rw [readWord,low,high,UInt8.toNat_ofNat',UInt8.toNat_ofNat']
  omega

private theorem holds_attribute (a : Attribute) (holds : Holds mem base a.bytes) :
    readWord mem base = a.payload.length + 4 ∧ readWord mem (base + 2) = a.type ∧ Holds mem (base + 4) a.payload := by
  obtain ⟨front,rest⟩ := (holds_append (header a) _).mp holds
  obtain ⟨length,type⟩ := (holds_append (word _) _).mp front
  exact ⟨readWord_word _ a.short length,readWord_word _ a.typed type,((holds_append a.payload _).mp rest).1⟩

/-- A walk over attributes that follow each other finds them, and goes on behind them. -/
theorem walk_encode (as : List Attribute) (more : Nat) (holds : Holds mem base (encode as)) :
    walk mem base ((encode as).length + more) = places base as ++ walk mem (base + (encode as).length) more := by
  induction as generalizing base with
  | nil =>
    rw [places,List.nil_append]
    congr 1
    exact Nat.zero_add more
  | cons a as ih =>
    obtain ⟨here,later⟩ := (holds_append a.bytes _).mp holds
    obtain ⟨length,-,-⟩ := holds_attribute a here
    have size := bytes_length a
    have enough := align_ge (a.payload.length + 4)
    have whole : Whole mem base ((encode (a::as)).length + more) := by
      rw [Whole,length,encode_cons,List.length_append]
      omega
    rw [walk,dif_pos whole,length,← size,places,List.cons_append]
    congr 1
    have rest : (encode (a::as)).length + more - a.bytes.length = (encode as).length + more := by
      rw [encode_cons,List.length_append]
      omega
    rw [rest,ih later,encode_cons,List.length_append,Nat.add_assoc]

theorem walk_all (as : List Attribute) (holds : Holds mem base (encode as)) :
    walk mem base (encode as).length = places base as := by
  have whole := walk_encode as 0 holds
  have none : ¬ Whole mem (base + (encode as).length) 0 := fun whole => absurd whole.1 (by decide)
  rw [Nat.add_zero] at whole
  rw [whole,walk,dif_neg none,List.append_nil]

/-- The last attribute of a type that a walk comes by. -/
def lastOf (mem : Mem UInt8) (found : List Nat) (type : Nat) : Option Nat :=
  found.reverse.find? (fun a => readWord mem (a + 2) == type)

private theorem lastOf_none (as : List Attribute) (type : Nat) (holds : Holds mem base (encode as))
    (missing : ∀ a ∈ as, a.type ≠ type) : lastOf mem (places base as) type = none := by
  rw [lastOf,List.find?_eq_none]
  intro place member
  rw [List.mem_reverse] at member
  induction as generalizing base with
  | nil => cases member
  | cons a as ih =>
    obtain ⟨first,others⟩ := List.forall_mem_cons.mp missing
    obtain ⟨here,later⟩ := (holds_append a.bytes _).mp holds
    rcases List.mem_cons.mp member with rfl | behind
    · simpa [(holds_attribute a here).2.1] using first
    · exact ih later others behind

private theorem places_append (as bs : List Attribute) :
    places base (as ++ bs) = places base as ++ places (base + (encode as).length) bs := by
  induction as generalizing base with
  | nil => rfl
  | cons a as ih => rw [List.cons_append,places,places,ih,List.cons_append,encode_cons,List.length_append,Nat.add_assoc]

/-- The last of a type is found where it is, with what it holds. -/
theorem lastOf_some (front back : List Attribute) (a : Attribute) (holds : Holds mem base (encode (front ++ a::back)))
    (last : ∀ b ∈ back, b.type ≠ a.type) :
    lastOf mem (places base (front ++ a::back)) a.type = some (base + (encode front).length) ∧
      readWord mem (base + (encode front).length) = a.payload.length + 4 ∧
      Holds mem (base + (encode front).length + 4) a.payload := by
  rw [encode_append,holds_append,encode_cons,holds_append] at holds
  obtain ⟨-,here,later⟩ := holds
  obtain ⟨length,type,payload⟩ := holds_attribute a here
  have behind := lastOf_none back a.type later last
  refine ⟨?_,length,payload⟩
  rw [lastOf] at behind ⊢
  rw [places_append,places,List.reverse_append,List.reverse_cons,List.find?_append,List.find?_append,behind]
  simp [type]

end

end Attributes
