/-! Text measured, cut and searched by the byte positions of its UTF-8 form. A position is a boundary
when whole characters fill the bytes before it, and only there can a text be cut. -/
namespace Linewise.Text

def size : List Char → Nat
  | [] => 0
  | c :: s => c.utf8Size + size s

@[simp] theorem size_nil : size [] = 0 := rfl

@[simp] theorem size_cons (c : Char) (s : List Char) : size (c :: s) = c.utf8Size + size s := rfl

@[simp] theorem size_append (s t : List Char) : size (s ++ t) = size s + size t := by
  induction s with
  | nil => simp
  | cons c s ih => simp [ih, Nat.add_assoc]

theorem size_eq_zero_iff {s : List Char} : size s = 0 ↔ s = [] := by
  cases s with
  | nil => simp
  | cons c s => simp [Nat.ne_of_gt c.utf8Size_pos]

def bytes (s : List Char) : List UInt8 := s.flatMap String.utf8EncodeChar

@[simp] theorem bytes_append (s t : List Char) : bytes (s ++ t) = bytes s ++ bytes t := by
  simp [bytes]

@[simp] theorem length_bytes (s : List Char) : (bytes s).length = size s := by
  induction s with
  | nil => rfl
  | cons c s ih => simpa [bytes] using ih

/-- The text before and after its first `n` bytes, if `n` is a boundary. -/
def cut? : Nat → List Char → Option (List Char × List Char)
  | 0, s => some ([], s)
  | _ + 1, [] => none
  | n + 1, c :: s =>
    if c.utf8Size ≤ n + 1 then
      (cut? (n + 1 - c.utf8Size) s).map fun (before, after) => (c :: before, after)
    else none

@[simp] theorem cut?_zero (s : List Char) : cut? 0 s = some ([], s) := by
  cases s <;> rfl

theorem cut?_size_append (p q : List Char) : cut? (size p) (p ++ q) = some (p, q) := by
  induction p with
  | nil => simp
  | cons c p ih =>
    obtain ⟨n, hn⟩ : ∃ n, c.utf8Size + size p = n + 1 :=
      ⟨_, (Nat.succ_pred_eq_of_pos (Nat.add_pos_left c.utf8Size_pos _)).symm⟩
    have hsize : n + 1 - c.utf8Size = size p := by omega
    have hle : c.utf8Size ≤ n + 1 := by omega
    simp only [size_cons, List.cons_append, hn, cut?, hle, if_true, hsize, ih, Option.map_some]

theorem cut?_sound {n : Nat} {s p q : List Char} (h : cut? n s = some (p, q)) :
    s = p ++ q ∧ size p = n := by
  fun_induction cut? n s generalizing p q with
  | case1 s => simp_all
  | case2 => simp at h
  | case3 n c s hle ih =>
    simp only [Option.map_eq_some_iff, Prod.exists, Prod.mk.injEq] at h
    obtain ⟨p', q', hcut, rfl, rfl⟩ := h
    obtain ⟨hs, hp⟩ := ih hcut
    exact ⟨by rw [hs]; rfl, by rw [size_cons, hp]; omega⟩
  | case4 => simp at h

theorem cut?_eq_some_iff {n : Nat} {s p q : List Char} :
    cut? n s = some (p, q) ↔ s = p ++ q ∧ size p = n :=
  ⟨cut?_sound, by rintro ⟨rfl, rfl⟩; exact cut?_size_append p q⟩

/-- Position `n` lies between two characters of `s` or at one of its ends. -/
def IsBoundary (s : List Char) (n : Nat) : Prop := ∃ p q, s = p ++ q ∧ size p = n

theorem isBoundary_iff_isSome {s : List Char} {n : Nat} : IsBoundary s n ↔ (cut? n s).isSome := by
  simp only [Option.isSome_iff_exists, Prod.exists, cut?_eq_some_iff, IsBoundary]

instance (s : List Char) (n : Nat) : Decidable (IsBoundary s n) :=
  decidable_of_iff _ isBoundary_iff_isSome.symm

def slice? (s : String) (a b : Nat) : Option String :=
  if a ≤ b then do
    let (_, rest) ← cut? a s.toList
    let (part, _) ← cut? (b - a) rest
    return .ofList part
  else none

theorem slice?_eq_some_iff {s t : String} {a b : Nat} :
    slice? s a b = some t ↔
      ∃ p q, s.toList = p ++ t.toList ++ q ∧ size p = a ∧ size p + size t.toList = b := by
  unfold slice?
  split
  next hab =>
    simp only [Option.bind_eq_bind, Option.bind_eq_some_iff, Prod.exists, cut?_eq_some_iff,
      Option.pure_def, Option.some.injEq]
    constructor
    · rintro ⟨p, rest, ⟨hs, hp⟩, part, q, ⟨rfl, hsize⟩, rfl⟩
      exact ⟨p, q, by simp [hs], hp, by simp only [String.toList_ofList]; omega⟩
    · rintro ⟨p, q, hs, hp, hsize⟩
      exact ⟨p, t.toList ++ q, ⟨by rw [hs, List.append_assoc], hp⟩, t.toList, q,
        ⟨rfl, by omega⟩, String.ofList_toList⟩
  next hab =>
    simp only [reduceCtorEq, false_iff, not_exists, not_and]
    intro p q _ hp hsize
    omega

/-- The text before the first occurrence of `pattern`, and the text from that occurrence on. -/
def breakOn? (pattern : List Char) : List Char → Option (List Char × List Char)
  | [] => if pattern.isEmpty then some ([], []) else none
  | c :: s =>
    if pattern.isPrefixOf (c :: s) then some ([], c :: s)
    else (breakOn? pattern s).map fun (before, found) => (c :: before, found)

theorem breakOn?_sound {pattern s before found : List Char}
    (h : breakOn? pattern s = some (before, found)) :
    s = before ++ found ∧ pattern <+: found := by
  fun_induction breakOn? pattern s generalizing before found with
  | case1 hempty => simp_all
  | case2 => simp at h
  | case3 c s hfound =>
    simp only [Option.some.injEq, Prod.mk.injEq] at h
    obtain ⟨rfl, rfl⟩ := h
    exact ⟨rfl, List.isPrefixOf_iff_prefix.1 hfound⟩
  | case4 c s _ ih =>
    simp only [Option.map_eq_some_iff, Prod.exists, Prod.mk.injEq] at h
    obtain ⟨before', found', hrest, rfl, rfl⟩ := h
    obtain ⟨hs, hfound⟩ := ih hrest
    exact ⟨by rw [hs]; rfl, hfound⟩

theorem length_add_of_breakOn? {pattern s before found : List Char}
    (h : breakOn? pattern s = some (before, found)) :
    before.length + found.length = s.length ∧ pattern.length ≤ found.length := by
  obtain ⟨rfl, hfound⟩ := breakOn?_sound h
  exact ⟨List.length_append.symm, hfound.length_le⟩

end Linewise.Text
