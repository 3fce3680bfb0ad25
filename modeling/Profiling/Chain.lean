import Mathlib

/-!
# Profiling.Chain

Singly linked chains in a heap of cells.

The heap is a partial map from addresses to cells.  A loop that walks a chain
has a step budget and fails when it follows a pointer to a cell that is not
there, so a result of a loop says that the loop ends and that no pointer
dangles.

`Seg cells p xs q` reads a stretch of a chain as a list: from `p` the cells of
`xs` follow one another, up to the pointer `q`.  The address of a cell
determines what follows it, hence no cell is twice in a chain that ends
(`nodup_of_seg`).  Every loop is then a list operation: `List.find?` for a
search, `List.eraseP` for the removal of one cell, `List.filter` for a walk
that removes on its way.
-/

namespace Profiling.Chain

/-- A cell; a `NULL` pointer is `none`. -/
structure Cell (α : Type u) where
  data : α
  next : Option Nat

/-- The heap, as far as it holds cells. -/
abbrev Cells (α : Type u) := Nat → Option (Cell α)

/-- The head of a chain, and the heap it is in. -/
structure Chained (α : Type u) where
  head : Option Nat
  cells : Cells α

/-! ## The loops -/

/-- Walk to the first cell whose data satisfies `p`. -/
def findLoop (p : α → Bool) (cells : Cells α) : Nat → Option Nat → Option (Option Nat)
  | 0, _ => none
  | _ + 1, none => some none
  | fuel + 1, some addr =>
      match cells addr with
      | none => none
      | some cell =>
          if p cell.data then some (some addr) else findLoop p cells fuel cell.next

namespace Chained

/-- `free` of a cell -/
def free (s : Chained α) (addr : Nat) : Chained α :=
  { s with cells := Function.update s.cells addr none }

/-- `prev->next = next`, or `head = next` when there is no predecessor. -/
def link (s : Chained α) (prev next : Option Nat) : Option (Chained α) :=
  match prev with
  | none => some { s with head := next }
  | some addr => (s.cells addr).map fun cell =>
      { s with cells := Function.update s.cells addr (some { cell with next }) }

/-- Where the loop goes on behind `prev`. -/
def nextOf (s : Chained α) (prev : Option Nat) : Option (Option Nat) :=
  match prev with
  | none => some s.head
  | some addr => (s.cells addr).map Cell.next

/-- A new first cell. -/
def push (s : Chained α) (addr : Nat) (x : α) : Chained α where
  head := some addr
  cells := Function.update s.cells addr (some ⟨x, s.head⟩)

/-- Walk to the first cell that satisfies `p`, unlink and free it. -/
def removeLoop (p : α → Bool) :
    Nat → Option Nat → Option Nat → Chained α → Option (Chained α × Option Nat)
  | 0, _, _, _ => none
  | _ + 1, _, none, s => some (s, none)
  | fuel + 1, prev, some addr, s =>
      match s.cells addr with
      | none => none
      | some cell =>
          if p cell.data then (s.link prev cell.next).map fun s => (s.free addr, some addr)
          else removeLoop p fuel (some addr) cell.next s

/-- Walk over the whole chain; unlink and free the cells that satisfy `p`. -/
def sweepLoop (p : α → Bool) :
    Nat → Option Nat → Option Nat → Chained α → Option (Chained α × List Nat)
  | 0, _, _, _ => none
  | _ + 1, _, none, s => some (s, [])
  | fuel + 1, prev, some addr, s =>
      match s.cells addr with
      | none => none
      | some cell =>
          if p cell.data then do
            let s ← s.link prev cell.next
            let node ← s.nextOf prev
            let (s, freed) ← sweepLoop p fuel prev node (s.free addr)
            some (s, addr :: freed)
          else sweepLoop p fuel (some addr) cell.next s

end Chained

/-! ## Chains as lists -/

/-- From `p` the cells of `xs` follow one another, up to `q`. -/
def Seg (cells : Cells α) : Option Nat → List (Nat × α) → Option Nat → Prop
  | p, [], q => p = q
  | p, (addr, x) :: xs, q =>
      p = some addr ∧ ∃ next, cells addr = some ⟨x, next⟩ ∧ Seg cells next xs q

/-- The addresses of the cells. -/
abbrev addrs (xs : List (Nat × α)) : List Nat := xs.map Prod.fst

section Segments

variable {cells cells' : Cells α} {p q r : Option Nat} {xs ys : List (Nat × α)} {addr : Nat} {x : α}

@[simp] theorem seg_nil : Seg cells p [] q ↔ p = q := Iff.rfl

theorem seg_cons :
    Seg cells p ((addr, x) :: xs) q ↔
      p = some addr ∧ ∃ next, cells addr = some ⟨x, next⟩ ∧ Seg cells next xs q := Iff.rfl

theorem seg_append : Seg cells p (xs ++ ys) q ↔ ∃ r, Seg cells p xs r ∧ Seg cells r ys q := by
  induction xs generalizing p with
  | nil => simp
  | cons head xs ih =>
      obtain ⟨addr, x⟩ := head
      simp only [List.cons_append, seg_cons, ih]
      constructor
      · rintro ⟨hp, next, hcell, r, hxs, hys⟩
        exact ⟨r, ⟨hp, next, hcell, hxs⟩, hys⟩
      · rintro ⟨r, ⟨hp, next, hcell, hxs⟩, hys⟩
        exact ⟨hp, next, hcell, r, hxs, hys⟩

/-- A stretch grows by the cell that it ends at. -/
theorem Seg.concat (h : Seg cells p xs (some addr)) (hcell : cells addr = some ⟨x, q⟩) :
    Seg cells p (xs ++ [(addr, x)]) q :=
  seg_append.mpr ⟨some addr, h, rfl, q, hcell, rfl⟩

/-- **Frame rule**: what happens to other cells does not matter. -/
theorem Seg.frame (h : Seg cells p xs q) (hsame : ∀ addr ∈ addrs xs, cells' addr = cells addr) :
    Seg cells' p xs q := by
  induction xs generalizing p with
  | nil => exact h
  | cons head xs ih =>
      obtain ⟨addr, x⟩ := head
      obtain ⟨hp, next, hcell, hrest⟩ := h
      refine ⟨hp, next, ?_, ih hrest fun a ha => hsame a (List.mem_cons_of_mem _ ha)⟩
      rw [hsame addr (List.mem_cons_self ..), hcell]

/-- The start of a chain determines the chain. -/
theorem Seg.unique (hxs : Seg cells p xs none) (hys : Seg cells p ys none) : xs = ys := by
  induction xs generalizing p ys with
  | nil =>
      cases ys with
      | nil => rfl
      | cons head ys =>
          obtain ⟨addr, y⟩ := head
          cases (seg_nil.mp hxs).symm.trans hys.1
  | cons head xs ih =>
      obtain ⟨addr, x⟩ := head
      obtain ⟨rfl, next, hcell, hrest⟩ := hxs
      cases ys with
      | nil => cases seg_nil.mp hys
      | cons head ys =>
          obtain ⟨addr', y⟩ := head
          obtain ⟨hp, next', hcell', hrest'⟩ := hys
          obtain rfl := Option.some.inj hp
          cases hcell.symm.trans hcell'
          rw [ih hrest hrest']

/-- No cell is twice in a chain that ends. -/
theorem nodup_of_seg (h : Seg cells p xs none) : (addrs xs).Nodup := by
  induction xs generalizing p with
  | nil => exact List.nodup_nil
  | cons head xs ih =>
      obtain ⟨addr, x⟩ := head
      obtain ⟨hp, next, hcell, hrest⟩ := h
      refine List.nodup_cons.mpr ⟨fun hmem => ?_, ih hrest⟩
      obtain ⟨⟨a, y⟩, hy, rfl⟩ := List.mem_map.mp hmem
      obtain ⟨as, bs, rfl⟩ := List.append_of_mem hy
      obtain ⟨r, -, rfl, htail⟩ := seg_append.mp hrest
      have hfirst : Seg cells (some a) ((a, x) :: (as ++ (a, y) :: bs)) none :=
        ⟨rfl, next, hcell, hrest⟩
      have hagain : Seg cells (some a) ((a, y) :: bs) none := ⟨rfl, htail⟩
      have hlen := congrArg List.length (hfirst.unique hagain)
      simp only [List.length_cons, List.length_append] at hlen
      omega

/-- The cells of a chain are there. -/
theorem Seg.cell (h : Seg cells p xs q) (hmem : (addr, x) ∈ xs) :
    ∃ next, cells addr = some ⟨x, next⟩ := by
  obtain ⟨as, bs, rfl⟩ := List.append_of_mem hmem
  obtain ⟨r, -, -, next, hcell, -⟩ := seg_append.mp h
  exact ⟨next, hcell⟩

/-- The address of the last cell. -/
def lastAddr (xs : List (Nat × α)) : Option Nat := xs.getLast?.map Prod.fst

@[simp] theorem lastAddr_nil : lastAddr ([] : List (Nat × α)) = none := rfl

@[simp] theorem lastAddr_concat (xs : List (Nat × α)) (addr : Nat) (x : α) :
    lastAddr (xs ++ [(addr, x)]) = some addr := by
  simp [lastAddr]

end Segments

/-! ## What the loops do -/

section Loops

variable {s : Chained α} {as xs : List (Nat × α)} {node : Option Nat} {fuel : Nat} (p : α → Bool)

theorem findLoop_spec {cells : Cells α} (hxs : Seg cells node xs none) (hfuel : xs.length < fuel) :
    findLoop p cells fuel node = some ((xs.find? fun cell => p cell.2).map Prod.fst) := by
  induction xs generalizing fuel node with
  | nil =>
      obtain ⟨fuel, rfl⟩ := Nat.exists_eq_succ_of_ne_zero (Nat.ne_zero_of_lt hfuel)
      obtain rfl := seg_nil.mp hxs
      rfl
  | cons head xs ih =>
      obtain ⟨addr, x⟩ := head
      obtain ⟨fuel, rfl⟩ := Nat.exists_eq_succ_of_ne_zero (Nat.ne_zero_of_lt hfuel)
      obtain ⟨rfl, next, hcell, hrest⟩ := hxs
      rw [findLoop, hcell]
      dsimp only
      by_cases hp : p x
      · simp [hp]
      · rw [if_neg hp, ih hrest (Nat.lt_of_succ_lt_succ hfuel)]
        simp [hp]

namespace Chained

/-- Relinking behind a stretch lets it end elsewhere. -/
theorem link_spec {q : Option Nat} (has : Seg s.cells s.head as q) (hnodup : (addrs as).Nodup)
    (next : Option Nat) :
    ∃ s', s.link (lastAddr as) next = some s' ∧ s'.nextOf (lastAddr as) = some next ∧
      Seg s'.cells s'.head as next ∧ ∀ a ∉ addrs as, s'.cells a = s.cells a := by
  rcases List.eq_nil_or_concat as with rfl | ⟨bs, ⟨addr, x⟩, rfl⟩
  · exact ⟨{ s with head := next }, rfl, rfl, rfl, fun _ _ => rfl⟩
  · rw [List.concat_eq_append] at *
    obtain ⟨r, hbs, hr, next', hcell, -⟩ := seg_append.mp has
    have hout : addr ∉ addrs bs := by
      intro hmem
      rw [addrs, List.map_append, List.nodup_append] at hnodup
      exact hnodup.2.2 addr hmem addr (List.mem_singleton_self addr) rfl
    refine ⟨{ s with cells := Function.update s.cells addr (some ⟨x, next⟩) }, ?_, ?_, ?_, ?_⟩
    · simp [link, hcell]
    · simp [nextOf]
    · refine seg_append.mpr ⟨r, hbs.frame fun a ha => ?_, hr, next, ?_, rfl⟩
      · exact Function.update_of_ne (ne_of_mem_of_not_mem ha hout) _ _
      · exact Function.update_self _ _ _
    · intro a ha
      refine Function.update_of_ne (fun h => ha ?_) _ _
      simp [h]

/-- Unlinking and freeing the cell behind a stretch. -/
theorem unlink_spec {addr : Nat} {x : α} {next : Option Nat}
    (has : Seg s.cells s.head as (some addr)) (hcell : s.cells addr = some ⟨x, next⟩)
    (hxs : Seg s.cells next xs none) :
    ∃ s', s.link (lastAddr as) next = some s' ∧ s'.nextOf (lastAddr as) = some next ∧
      Seg (s'.free addr).cells (s'.free addr).head as next ∧
      Seg (s'.free addr).cells next xs none ∧
      ∀ a ∉ addrs (as ++ (addr, x) :: xs), (s'.free addr).cells a = s.cells a := by
  have hrest : Seg s.cells (some addr) ((addr, x) :: xs) none := ⟨rfl, next, hcell, hxs⟩
  have hnodup := nodup_of_seg (seg_append.mpr ⟨_, has, hrest⟩)
  simp only [addrs, List.map_append, List.map_cons, List.nodup_append, List.nodup_cons,
    List.mem_cons] at hnodup
  obtain ⟨hnas, ⟨haxs, -⟩, hdisj⟩ := hnodup
  obtain ⟨s', hlink, hnext, has', hsame⟩ := link_spec has hnas next
  refine ⟨s', hlink, hnext, has'.frame fun a ha => ?_, hxs.frame fun a ha => ?_, fun a ha => ?_⟩
  · exact Function.update_of_ne (hdisj a ha addr (.inl rfl)) _ _
  · refine (Function.update_of_ne (ne_of_mem_of_not_mem ha haxs) _ _).trans
      (hsame a fun hmem => ?_)
    exact hdisj a hmem a (.inr ha) rfl
  · simp only [addrs, List.map_append, List.map_cons, List.mem_append, List.mem_cons,
      not_or] at ha
    exact (Function.update_of_ne ha.2.1 _ _).trans (hsame a ha.1)

/-- The loop that removes one cell. -/
theorem removeLoop_spec (has : Seg s.cells s.head as node) (hxs : Seg s.cells node xs none)
    (hfuel : xs.length < fuel) :
    ∃ s', removeLoop p fuel (lastAddr as) node s =
        some (s', (xs.find? fun cell => p cell.2).map Prod.fst) ∧
      Seg s'.cells s'.head (as ++ xs.eraseP fun cell => p cell.2) none ∧
      ∀ a ∉ addrs (as ++ xs), s'.cells a = s.cells a := by
  induction xs generalizing fuel node as with
  | nil =>
      obtain ⟨fuel, rfl⟩ := Nat.exists_eq_succ_of_ne_zero (Nat.ne_zero_of_lt hfuel)
      obtain rfl := seg_nil.mp hxs
      exact ⟨s, rfl, by simpa using has, fun _ _ => rfl⟩
  | cons head xs ih =>
      obtain ⟨addr, x⟩ := head
      obtain ⟨fuel, rfl⟩ := Nat.exists_eq_succ_of_ne_zero (Nat.ne_zero_of_lt hfuel)
      obtain ⟨rfl, next, hcell, hrest⟩ := hxs
      rw [removeLoop, hcell]
      dsimp only
      by_cases hp : p x
      · obtain ⟨s', hlink, -, has', hrest', hsame⟩ := unlink_spec has hcell hrest
        refine ⟨s'.free addr, ?_, ?_, hsame⟩
        · simp [hp, hlink]
        · have herase : ((addr, x) :: xs).eraseP (fun cell => p cell.2) = xs := by simp [hp]
          rw [herase]
          exact seg_append.mpr ⟨next, has', hrest'⟩
      · have has' := has.concat hcell
        obtain ⟨s', hloop, hseg, hsame⟩ := ih has' hrest (Nat.lt_of_succ_lt_succ hfuel)
        rw [lastAddr_concat] at hloop
        refine ⟨s', ?_, ?_, fun a ha => hsame a ?_⟩
        · simp [hp, hloop]
        · simpa [hp] using hseg
        · simpa using ha

/-- The loop that removes cells on its way. -/
theorem sweepLoop_spec (has : Seg s.cells s.head as node) (hxs : Seg s.cells node xs none)
    (hfuel : xs.length < fuel) :
    ∃ s', sweepLoop p fuel (lastAddr as) node s =
        some (s', addrs (xs.filter fun cell => p cell.2)) ∧
      Seg s'.cells s'.head (as ++ xs.filter fun cell => !p cell.2) none ∧
      ∀ a ∉ addrs (as ++ xs), s'.cells a = s.cells a := by
  induction xs generalizing fuel node as s with
  | nil =>
      obtain ⟨fuel, rfl⟩ := Nat.exists_eq_succ_of_ne_zero (Nat.ne_zero_of_lt hfuel)
      obtain rfl := seg_nil.mp hxs
      exact ⟨s, rfl, by simpa using has, fun _ _ => rfl⟩
  | cons head xs ih =>
      obtain ⟨addr, x⟩ := head
      obtain ⟨fuel, rfl⟩ := Nat.exists_eq_succ_of_ne_zero (Nat.ne_zero_of_lt hfuel)
      obtain ⟨rfl, next, hcell, hrest⟩ := hxs
      have hfuel := Nat.lt_of_succ_lt_succ hfuel
      rw [sweepLoop, hcell]
      dsimp only
      by_cases hp : p x
      · obtain ⟨s₁, hlink, hnext, has₁, hrest₁, hsame₁⟩ := unlink_spec has hcell hrest
        obtain ⟨s₂, hloop, hseg, hsame₂⟩ := ih has₁ hrest₁ hfuel
        refine ⟨s₂, ?_, ?_, fun a ha => (hsame₂ a fun hmem => ha ?_).trans (hsame₁ a ha)⟩
        · simp [hp, hlink, hnext, hloop]
        · simpa [hp] using hseg
        · simp only [addrs, List.map_append, List.mem_append, List.map_cons, List.mem_cons]
            at hmem ⊢
          exact hmem.imp_right .inr
      · have has' := has.concat hcell
        obtain ⟨s', hloop, hseg, hsame⟩ := ih has' hrest hfuel
        rw [lastAddr_concat] at hloop
        refine ⟨s', ?_, ?_, fun a ha => hsame a ?_⟩
        · simp [hp, hloop]
        · simpa [hp] using hseg
        · simpa using ha

/-- A new first cell, at an address that is not in the chain. -/
theorem push_spec {addr : Nat} (hxs : Seg s.cells s.head xs none) (hout : addr ∉ addrs xs) (x : α) :
    Seg (s.push addr x).cells (s.push addr x).head ((addr, x) :: xs) none :=
  ⟨rfl, s.head, Function.update_self _ _ _,
    hxs.frame fun _ ha => Function.update_of_ne (ne_of_mem_of_not_mem ha hout) _ _⟩

end Chained

end Loops

end Profiling.Chain
