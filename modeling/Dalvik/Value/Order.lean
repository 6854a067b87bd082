import Dalvik.Value

/-!
# The order of values

Values are ordered by kind and then by content: numbers by size, floating-point numbers by the total
order of their bits, strings and ids in their own orders, lists lexicographically. The order tells
any two different values apart, so equality of values is decided by it.
-/
namespace Dalvik
open Text

/-- The place of a pattern of 32 bits in the total order of floating-point numbers. -/
def floatRank (bits : UInt32) : Int :=
  if bits.toNat < 0x80000000 then bits.toNat else 0x7fffffff - bits.toNat

/-- The place of a pattern of 64 bits in the total order of floating-point numbers. -/
def doubleRank (bits : UInt64) : Int :=
  if bits.toNat < 0x8000000000000000 then bits.toNat else 0x7fffffffffffffff - bits.toNat

mutual

def Value.cmp : Value → Value → Ordering
  | .byte a, .byte b => compare a b
  | .short a, .short b => compare a b
  | .char a, .char b => compare a b
  | .int a, .int b => compare a b
  | .long a, .long b => compare a b
  | .float a, .float b => compareOn floatRank a b
  | .double a, .double b => compareOn doubleRank a b
  | .methodType a, .methodType b => compare a b
  | .methodHandle a, .methodHandle b => compare a b
  | .string a, .string b => compareUtf16 a b
  | .type a, .type b => compare a b
  | .field a, .field b => compare a b
  | .method a, .method b => compare a b
  | .enum a, .enum b => compare a b
  | .array a, .array b => Value.cmpList a b
  | .annotated a, .annotated b => AnnotationValue.cmp a b
  | .null, .null => .eq
  | .boolean a, .boolean b => compare a b
  | a, b => compare a.kind b.kind
termination_by structural a => a

def Value.cmpList : List Value → List Value → Ordering
  | [], [] => .eq
  | [], _ :: _ => .lt
  | _ :: _, [] => .gt
  | a :: as, b :: bs => (a.cmp b).then (Value.cmpList as bs)
termination_by structural as => as

def AnnotationValue.cmp : AnnotationValue → AnnotationValue → Ordering
  | ⟨s, as⟩, ⟨t, bs⟩ => (compare s t).then (Element.cmpList as bs)
termination_by structural x => x

def Element.cmpList : List Element → List Element → Ordering
  | [], [] => .eq
  | [], _ :: _ => .lt
  | _ :: _, [] => .gt
  | a :: as, b :: bs => (Element.cmp a b).then (Element.cmpList as bs)
termination_by structural as => as

def Element.cmp : Element → Element → Ordering
  | ⟨n, a⟩, ⟨m, b⟩ => (compareUtf16 n m).then (a.cmp b)
termination_by structural x => x

end

theorem floatRank_injective {a b : UInt32} (h : floatRank a = floatRank b) : a = b := by
  apply UInt32.toNat_inj.mp
  unfold floatRank at h
  split at h <;> split at h <;> omega

theorem doubleRank_injective {a b : UInt64} (h : doubleRank a = doubleRank b) : a = b := by
  apply UInt64.toNat_inj.mp
  unfold doubleRank at h
  split at h <;> split at h <;> omega

theorem compareOn_floatRank_eq_iff {a b : UInt32} : compareOn floatRank a b = .eq ↔ a = b := by
  simp only [compareOn, Std.compare_eq_iff_eq]
  exact ⟨floatRank_injective, congrArg _⟩

theorem compareOn_doubleRank_eq_iff {a b : UInt64} :
    compareOn doubleRank a b = .eq ↔ a = b := by
  simp only [compareOn, Std.compare_eq_iff_eq]
  exact ⟨doubleRank_injective, congrArg _⟩

theorem compareUtf16_eq_iff {a b : String} : compareUtf16 a b = .eq ↔ a = b :=
  Std.LawfulEqCmp.compare_eq_iff_eq

mutual

theorem Value.eq_of_cmp : (a b : Value) → a.cmp b = .eq → a = b
  | .array as, b => by
    cases b with
    | array bs =>
      exact fun h => congrArg _ (Value.eq_of_cmpList as bs (by simpa [Value.cmp] using h))
    | _ => simp [Value.cmp, Value.kind]
  | .annotated x, b => by
    cases b with
    | annotated y =>
      exact fun h => congrArg _ (AnnotationValue.eq_of_cmp x y (by simpa [Value.cmp] using h))
    | _ => simp [Value.cmp, Value.kind]
  | .byte _, b | .short _, b | .char _, b | .int _, b | .long _, b | .float _, b | .double _, b
  | .methodType _, b | .methodHandle _, b | .string _, b | .type _, b | .field _, b
  | .method _, b | .enum _, b | .null, b | .boolean _, b => by
    cases b <;> simp [Value.cmp, Value.kind, compareOn_floatRank_eq_iff,
      compareOn_doubleRank_eq_iff]

theorem Value.eq_of_cmpList : (as bs : List Value) → Value.cmpList as bs = .eq → as = bs
  | [], bs => by cases bs <;> simp [Value.cmpList]
  | a :: as, [] => by simp [Value.cmpList]
  | a :: as, b :: bs => fun h => by
    obtain ⟨h₁, h₂⟩ : a.cmp b = .eq ∧ Value.cmpList as bs = .eq := by
      simpa [Value.cmpList, Ordering.then_eq_eq] using h
    rw [Value.eq_of_cmp a b h₁, Value.eq_of_cmpList as bs h₂]

theorem AnnotationValue.eq_of_cmp : (x y : AnnotationValue) → x.cmp y = .eq → x = y
  | ⟨s, as⟩, ⟨t, bs⟩ => fun h => by
    obtain ⟨h₁, h₂⟩ : s = t ∧ Element.cmpList as bs = .eq := by
      simpa [AnnotationValue.cmp, Ordering.then_eq_eq, Std.compare_eq_iff_eq] using h
    rw [h₁, Element.eq_of_cmpList as bs h₂]

theorem Element.eq_of_cmpList : (as bs : List Element) → Element.cmpList as bs = .eq → as = bs
  | [], bs => by cases bs <;> simp [Element.cmpList]
  | a :: as, [] => by simp [Element.cmpList]
  | a :: as, b :: bs => fun h => by
    obtain ⟨h₁, h₂⟩ : Element.cmp a b = .eq ∧ Element.cmpList as bs = .eq := by
      simpa [Element.cmpList, Ordering.then_eq_eq] using h
    rw [Element.eq_of_cmp a b h₁, Element.eq_of_cmpList as bs h₂]

theorem Element.eq_of_cmp : (x y : Element) → Element.cmp x y = .eq → x = y
  | ⟨n, a⟩, ⟨m, b⟩ => fun h => by
    obtain ⟨h₁, h₂⟩ : n = m ∧ a.cmp b = .eq := by
      simpa [Element.cmp, Ordering.then_eq_eq, compareUtf16_eq_iff] using h
    rw [h₁, Value.eq_of_cmp a b h₂]

end

mutual

theorem Value.cmp_self : (a : Value) → a.cmp a = .eq
  | .array as => by simpa [Value.cmp] using Value.cmpList_self as
  | .annotated x => by simpa [Value.cmp] using AnnotationValue.cmp_self x
  | .byte _ | .short _ | .char _ | .int _ | .long _ | .float _ | .double _ | .methodType _
  | .methodHandle _ | .string _ | .type _ | .field _ | .method _ | .enum _ | .null
  | .boolean _ => by
    simp [Value.cmp, compareOn_floatRank_eq_iff, compareOn_doubleRank_eq_iff]

theorem Value.cmpList_self : (as : List Value) → Value.cmpList as as = .eq
  | [] => rfl
  | a :: as => by
    rw [Value.cmpList, Value.cmp_self a, Value.cmpList_self as]
    rfl

theorem AnnotationValue.cmp_self : (x : AnnotationValue) → x.cmp x = .eq
  | ⟨s, as⟩ => by
    rw [AnnotationValue.cmp, Std.compare_self, Element.cmpList_self as]
    rfl

theorem Element.cmpList_self : (as : List Element) → Element.cmpList as as = .eq
  | [] => rfl
  | a :: as => by
    rw [Element.cmpList, Element.cmp_self a, Element.cmpList_self as]
    rfl

theorem Element.cmp_self : (x : Element) → Element.cmp x x = .eq
  | ⟨n, a⟩ => by
    rw [Element.cmp, Value.cmp_self a, compareUtf16_eq_iff.mpr rfl]
    rfl

end

theorem Value.cmp_eq_iff {a b : Value} : a.cmp b = .eq ↔ a = b :=
  ⟨Value.eq_of_cmp a b, fun h => h ▸ Value.cmp_self a⟩

theorem AnnotationValue.cmp_eq_iff {a b : AnnotationValue} : a.cmp b = .eq ↔ a = b :=
  ⟨AnnotationValue.eq_of_cmp a b, fun h => h ▸ AnnotationValue.cmp_self a⟩

theorem Element.cmp_eq_iff {a b : Element} : Element.cmp a b = .eq ↔ a = b :=
  ⟨Element.eq_of_cmp a b, fun h => h ▸ Element.cmp_self a⟩

instance : DecidableEq Value := fun _ _ => decidable_of_iff _ Value.cmp_eq_iff

instance : DecidableEq AnnotationValue := fun _ _ =>
  decidable_of_iff _ AnnotationValue.cmp_eq_iff

instance : DecidableEq Element := fun _ _ => decidable_of_iff _ Element.cmp_eq_iff

instance : Ord Value := ⟨Value.cmp⟩

instance : Ord AnnotationValue := ⟨AnnotationValue.cmp⟩

instance : Ord Element := ⟨Element.cmp⟩

instance : Std.LawfulEqOrd Value where
  compare_self {a} := Value.cmp_self a
  eq_of_compare {a b} := Value.eq_of_cmp a b

/-! ## Hashing -/

mutual

def Value.hashCode : Value → UInt64
  | .byte n => mixHash 0x00 (hash n)
  | .short n => mixHash 0x02 (hash n)
  | .char n => mixHash 0x03 (hash n)
  | .int n => mixHash 0x04 (hash n)
  | .long n => mixHash 0x06 (hash n)
  | .float bits => mixHash 0x10 (hash bits)
  | .double bits => mixHash 0x11 (hash bits)
  | .methodType id => mixHash 0x15 (hash id)
  | .methodHandle h => mixHash 0x16 (hash h)
  | .string s => mixHash 0x17 (hash s)
  | .type id => mixHash 0x18 (hash id)
  | .field id => mixHash 0x19 (hash id)
  | .method id => mixHash 0x1a (hash id)
  | .enum id => mixHash 0x1b (hash id)
  | .array values => Value.hashList 0x1c values
  | .annotated a => mixHash 0x1d a.hashCode
  | .null => 0x1e
  | .boolean b => mixHash 0x1f (hash b)

def Value.hashList (seed : UInt64) : List Value → UInt64
  | [] => seed
  | v :: vs => Value.hashList (mixHash seed v.hashCode) vs

def AnnotationValue.hashCode : AnnotationValue → UInt64
  | ⟨t, elements⟩ => Element.hashList (hash t) elements

def Element.hashList (seed : UInt64) : List Element → UInt64
  | [] => seed
  | e :: es => Element.hashList (mixHash seed (Element.hashCode e)) es

def Element.hashCode : Element → UInt64
  | ⟨name, v⟩ => mixHash (hash name) v.hashCode

end

instance : Hashable Value := ⟨Value.hashCode⟩

instance : Hashable AnnotationValue := ⟨AnnotationValue.hashCode⟩

end Dalvik
