/-!
# Bytes in a ring buffer

The bytes a stream has pushed back live in a growable ring buffer of `capacity` cells: the
first at cell `head`, each next one in the cell after it, wrapping round to cell 0. A
`ByteDeque` keeps the bytes in order together with that layout, which is what a reader can
see of the buffer: `frontSlice`, the bytes from `head` up to the end of the buffer, is all
that one read from the front takes at once.

The buffer grows as the standard library's growth policy has it: to twice its capacity, or to
what is needed if that is more, and never to fewer than 8 cells; of the two runs a wrapped
layout falls in, the shorter one is moved so that the bytes stay in order. Draining the front
moves `head` past the bytes taken, and back to cell 0 once none are left.

The structure carries the two bounds every operation keeps: the bytes fit, and `head` is a
cell of the buffer (or 0 when the buffer has none), so a buffer that holds bytes has a
non-empty front slice (`frontSlice_ne_nil`).
-/

namespace MimeMultipart

/-- Bytes in order in a ring buffer of `capacity` cells, the first of them at cell `head`. -/
structure ByteDeque where
  items : List UInt8
  capacity : Nat
  head : Nat
  fits : items.length ≤ capacity
  head_lt : head < capacity ∨ head = 0

namespace ByteDeque

def empty : ByteDeque := ⟨[], 0, 0, Nat.le_refl 0, .inr rfl⟩

@[simp] theorem empty_items : empty.items = [] := rfl

/-! ## Cells of a ring -/

/-- The cell `k` places after cell `i` in a ring of `cap` cells, for `i < cap` and `k ≤ cap`. -/
def wrapAdd (cap i k : Nat) : Nat := if cap ≤ i + k then i + k - cap else i + k

/-- The cell `k` places before cell `i` in a ring of `cap` cells, for `i < cap` and `k ≤ cap`. -/
def wrapSub (cap i k : Nat) : Nat := if k ≤ i then i - k else i + cap - k

theorem wrapAdd_lt {cap i k : Nat} (hi : i < cap) (hk : k < cap) : wrapAdd cap i k < cap := by
  unfold wrapAdd
  split <;> omega

theorem wrapSub_lt {cap i k : Nat} (hi : i < cap ∨ i = 0) (hk : 0 < k) (hcap : k ≤ cap) :
    wrapSub cap i k < cap := by
  unfold wrapSub
  split <;> omega

/-! ## Growth -/

/-- The capacity a buffer of `capacity` cells grows to when it must hold `needed` bytes. -/
def grownCapacity (capacity needed : Nat) : Nat := max 8 (max (2 * capacity) needed)

/-- Where the first byte sits once a buffer holding `len` bytes from cell `head` grew from `old`
to `new` cells. Bytes that did not wrap stay where they are; otherwise the run wrapped to the
start is copied past the old end when it is the shorter one and fits there, and else the run at
the old end is moved to the new end. -/
def grownHead (len head old new : Nat) : Nat :=
  if head ≤ old - len then head
  else if len - (old - head) < old - head ∧ len - (old - head) ≤ new - old then head
  else new - (old - head)

theorem needed_le_grownCapacity (capacity needed : Nat) :
    needed ≤ grownCapacity capacity needed := by
  unfold grownCapacity
  omega

theorem grownHead_lt {len head old new : Nat} (hhead : head < old ∨ head = 0) (hnew : old < new) :
    grownHead len head old new < new := by
  unfold grownHead
  split
  · omega
  · split <;> omega

/-- Makes room for `extra` more bytes, growing the buffer when they do not fit. -/
def reserve (d : ByteDeque) (extra : Nat) : ByteDeque :=
  if h : d.items.length + extra ≤ d.capacity then d
  else
    let cap := grownCapacity d.capacity (d.items.length + extra)
    have hcap : d.items.length + extra ≤ cap := needed_le_grownCapacity _ _
    { items := d.items
      capacity := cap
      head := grownHead d.items.length d.head d.capacity cap
      fits := by omega
      head_lt := .inl (grownHead_lt d.head_lt (by omega)) }

@[simp] theorem reserve_items (d : ByteDeque) (extra : Nat) : (d.reserve extra).items = d.items := by
  unfold reserve
  split <;> rfl

theorem room_reserve (d : ByteDeque) (extra : Nat) :
    d.items.length + extra ≤ (d.reserve extra).capacity := by
  unfold reserve
  split
  · assumption
  · exact needed_le_grownCapacity _ _

/-! ## Operations at the front -/

/-- Puts `b` in front of the bytes; a full buffer first grows as `reserve 1` makes it. -/
def pushFront (d : ByteDeque) (b : UInt8) : ByteDeque :=
  let r := d.reserve 1
  have hroom : d.items.length + 1 ≤ r.capacity := room_reserve d 1
  { items := b :: r.items
    capacity := r.capacity
    head := wrapSub r.capacity r.head 1
    fits := by simp only [List.length_cons, r, reserve_items]; omega
    head_lt := .inl (wrapSub_lt r.head_lt Nat.one_pos (by omega)) }

@[simp] theorem pushFront_items (d : ByteDeque) (b : UInt8) :
    (d.pushFront b).items = b :: d.items := by
  simp [pushFront]

/-- Bytes pushed in front one at a time from the last stand in front in order. -/
@[simp] theorem foldr_pushFront_items (bs : List UInt8) (d : ByteDeque) :
    (bs.foldr (fun b d => d.pushFront b) d).items = bs ++ d.items := by
  induction bs with
  | nil => rfl
  | cons b bs ih => simp [ih]

/-- The bytes from `head` up to the end of the buffer, or of the bytes: the first of the two
slices the bytes are laid out in. -/
def frontSlice (d : ByteDeque) : List UInt8 := d.items.take (d.capacity - d.head)

theorem frontSlice_prefix (d : ByteDeque) : d.frontSlice <+: d.items :=
  List.take_prefix _ _

theorem frontSlice_take {d : ByteDeque} {k : Nat} (hk : k ≤ d.frontSlice.length) :
    d.frontSlice.take k = d.items.take k := by
  obtain ⟨t, ht⟩ := d.frontSlice_prefix
  rw [← ht, List.take_append_of_le_length hk]

/-- A buffer that holds bytes has a first one at cell `head`. -/
theorem frontSlice_ne_nil {d : ByteDeque} (h : d.items ≠ []) : d.frontSlice ≠ [] := by
  have hpos : 0 < d.items.length := List.length_pos_iff.2 h
  have hfits := d.fits
  have hhead := d.head_lt
  intro hnil
  have : min (d.capacity - d.head) d.items.length = 0 := by
    rw [← List.length_take, ← frontSlice, hnil, List.length_nil]
  omega

/-- From a buffer that holds bytes, the first `min |frontSlice| n` of them, for `n > 0`, are a
first byte and the ones after it. -/
theorem take_front_eq_cons {d : ByteDeque} (h : d.items ≠ []) {n : Nat} (hn : n ≠ 0) :
    ∃ b bs, d.items.take (min d.frontSlice.length n) = b :: bs ∧
      bs.length + 1 = min d.frontSlice.length n := by
  have hfront := List.length_pos_iff.2 (frontSlice_ne_nil h)
  have hle : d.frontSlice.length ≤ d.items.length := d.frontSlice_prefix.length_le
  match hk : d.items.take (min d.frontSlice.length n) with
  | [] =>
    rcases List.take_eq_nil_iff.1 hk with hk | hk
    · omega
    · exact absurd hk h
  | b :: bs =>
    refine ⟨b, bs, rfl, ?_⟩
    have := congrArg List.length hk
    simp only [List.length_take, List.length_cons] at this
    omega

/-- Removes the first `k` bytes, `k` at most the number held: `head` moves past them, or back to
cell 0 when none are left. -/
def drainFront (d : ByteDeque) (k : Nat) : ByteDeque where
  items := d.items.drop k
  capacity := d.capacity
  head := if d.items.length ≤ k then 0 else wrapAdd d.capacity d.head k
  fits := by
    have := d.fits
    simp only [List.length_drop]
    omega
  head_lt := by
    have hfits := d.fits
    have hhead := d.head_lt
    split
    · exact .inr rfl
    · exact .inl (wrapAdd_lt (by omega) (by omega))

@[simp] theorem drainFront_items (d : ByteDeque) (k : Nat) :
    (d.drainFront k).items = d.items.drop k := rfl

end ByteDeque

end MimeMultipart
