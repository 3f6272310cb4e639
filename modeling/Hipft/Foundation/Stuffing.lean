import Mathlib.Data.List.Basic
import Mathlib.Data.List.Induction

/-! # Overhead stuffing

A text over an alphabet with a distinguished letter `zero` is cut into blocks
of at most `cap` other letters. Every block but a full one stands for its
letters and one `zero`; a full one stands for its letters alone. On the wire a
block is a code letter for its length followed by its letters, so no `zero`
is left and the letter is free to delimit frames.

The blocks of a text are unique (`text_injective`), and so are the blocks of a
wire string when the codes are distinct (`wire_injective`). `split` computes
the blocks of a text one letter at a time. It undoes `text` (`split_text`); the
other way round it loses whether a text that stops inside a block had a last
`zero` (`text_split`).
-/

namespace Stuffing

variable {α : Type} {zero : α} {cap : Nat}

/-- A run of letters other than `zero`, no longer than a code can tell. -/
structure Block (zero : α) (cap : Nat) where
  data : List α
  nonzero : zero ∉ data
  short : data.length ≤ cap

namespace Block

@[ext] theorem ext {b c : Block zero cap} (hdata : b.data = c.data) : b = c := by
  cases b
  cases c
  simpa using hdata

/-- A full block has no `zero` of its own. -/
def Full (b : Block zero cap) : Prop := b.data.length = cap

instance (b : Block zero cap) : Decidable b.Full := inferInstanceAs (Decidable (_ = _))

/-- What a block stands for. -/
def text (b : Block zero cap) : List α := if b.Full then b.data else b.data ++ [zero]

/-- The block as sent, `code n` standing for a length of `n`. -/
def wire (code : Nat → α) (b : Block zero cap) : List α := code b.data.length :: b.data

theorem text_full {b : Block zero cap} (hfull : b.Full) : b.text = b.data := if_pos hfull

theorem text_open {b : Block zero cap} (hopen : ¬ b.Full) : b.text = b.data ++ [zero] :=
  if_neg hopen

theorem open_of_empty (hcap : 0 < cap) {b : Block zero cap} (hb : b.data = []) : ¬ b.Full := by
  rw [Full, hb, List.length_nil]
  exact Nat.ne_of_lt hcap

@[simp] theorem wire_length (code : Nat → α) (b : Block zero cap) :
    (b.wire code).length = b.data.length + 1 := rfl

end Block

/-! ## Sequences of blocks -/

/-- The text a sequence of blocks stands for. -/
def text (blocks : List (Block zero cap)) : List α := blocks.flatMap Block.text

/-- The letters a sequence of blocks is sent as. -/
def wire (code : Nat → α) (blocks : List (Block zero cap)) : List α :=
  blocks.flatMap (Block.wire code)

@[simp] theorem text_nil : text ([] : List (Block zero cap)) = [] := rfl

@[simp] theorem text_cons (b : Block zero cap) (rest : List (Block zero cap)) :
    text (b :: rest) = b.text ++ text rest := rfl

@[simp] theorem text_append (front back : List (Block zero cap)) :
    text (front ++ back) = text front ++ text back := List.flatMap_append

@[simp] theorem wire_nil (code : Nat → α) : wire code ([] : List (Block zero cap)) = [] := rfl

@[simp] theorem wire_cons (code : Nat → α) (b : Block zero cap)
    (rest : List (Block zero cap)) : wire code (b :: rest) = b.wire code ++ wire code rest := rfl

@[simp] theorem wire_append (code : Nat → α) (front back : List (Block zero cap)) :
    wire code (front ++ back) = wire code front ++ wire code back := List.flatMap_append

/-- The full blocks of a sequence. -/
def fullCount (blocks : List (Block zero cap)) : Nat := blocks.countP fun b => b.Full

@[simp] theorem fullCount_nil : fullCount ([] : List (Block zero cap)) = 0 := rfl

theorem fullCount_cons (b : Block zero cap) (rest : List (Block zero cap)) :
    fullCount (b :: rest) = fullCount rest + if b.Full then 1 else 0 := by
  simp [fullCount, List.countP_cons]

/-- A block costs a letter exactly when it has no `zero` of its own. -/
theorem wire_length_eq (code : Nat → α) (blocks : List (Block zero cap)) :
    (wire code blocks).length = (text blocks).length + fullCount blocks := by
  induction blocks with
  | nil => rfl
  | cons b rest ih =>
      have hblock : b.data.length + 1 = b.text.length + if b.Full then 1 else 0 := by
        by_cases hfull : b.Full
        · rw [Block.text_full hfull, if_pos hfull]
        · rw [Block.text_open hfull, if_neg hfull, List.length_append, List.length_singleton]
      simp only [text_cons, wire_cons, List.length_append, Block.wire_length, fullCount_cons]
      omega

theorem text_length_le (code : Nat → α) (blocks : List (Block zero cap)) :
    (text blocks).length ≤ (wire code blocks).length := by
  rw [wire_length_eq]
  exact Nat.le_add_right _ _

/-- Stuffing adds a letter to every block of `cap` letters at the most. -/
theorem wire_length_le (code : Nat → α) (blocks : List (Block zero cap)) :
    cap * (wire code blocks).length ≤ (cap + 1) * (text blocks).length := by
  induction blocks with
  | nil => simp
  | cons b rest ih =>
      have hblock : cap * (b.data.length + 1) ≤ (cap + 1) * b.text.length := by
        by_cases hfull : b.Full
        · have hlength : b.data.length = cap := hfull
          exact Nat.le_of_eq (by rw [Block.text_full hfull, hlength, Nat.mul_comm])
        · rw [Block.text_open hfull, List.length_append, List.length_singleton]
          exact Nat.mul_le_mul_right _ (Nat.le_succ cap)
      simp only [text_cons, wire_cons, List.length_append, Block.wire_length,
        Nat.mul_add] at hblock ⊢
      omega

/-- Codes other than `zero` leave no `zero` on the wire. -/
theorem zero_notMem_wire {code : Nat → α} (hcode : ∀ n ≤ cap, code n ≠ zero)
    (blocks : List (Block zero cap)) : zero ∉ wire code blocks := by
  induction blocks with
  | nil => simp
  | cons b rest ih =>
      simp only [wire_cons, Block.wire, List.cons_append, List.mem_cons, List.mem_append, not_or]
      exact ⟨(hcode _ b.short).symm, b.nonzero, ih⟩

/-- Distinct codes make a wire string readable in one way only. -/
theorem wire_injective {code : Nat → α}
    (hcode : ∀ m ≤ cap, ∀ n ≤ cap, code m = code n → m = n) :
    Function.Injective (wire code : List (Block zero cap) → List α) := by
  intro left
  induction left with
  | nil =>
      intro right hwire
      cases right with
      | nil => rfl
      | cons c rest => simp [Block.wire] at hwire
  | cons b left ih =>
      intro right hwire
      cases right with
      | nil => simp [Block.wire] at hwire
      | cons c right =>
          simp only [wire_cons, Block.wire, List.cons_append, List.cons.injEq] at hwire
          obtain ⟨hlength, hrest⟩ := hwire
          have hsplit := List.append_inj hrest (hcode _ b.short _ c.short hlength)
          rw [Block.ext hsplit.1, ih hsplit.2]

/-! ## Splitting a text -/

/-- A block that can take one more letter. -/
structure Run (zero : α) (cap : Nat) where
  data : List α
  nonzero : zero ∉ data
  short : data.length < cap

namespace Run

/-- Close a run without filling it. -/
def close (r : Run zero cap) : Block zero cap := ⟨r.data, r.nonzero, Nat.le_of_lt r.short⟩

/-- The run with one more letter, as a block. -/
def push (r : Run zero cap) (a : α) (ha : a ≠ zero) : Block zero cap where
  data := r.data ++ [a]
  nonzero := by
    simp only [List.mem_append, List.mem_singleton, not_or]
    exact ⟨r.nonzero, ha.symm⟩
  short := by
    have := r.short
    simp only [List.length_append, List.length_singleton]
    omega

/-- The run with one more letter, when that leaves it open. -/
def extend (r : Run zero cap) (a : α) (ha : a ≠ zero) (hopen : r.data.length + 1 < cap) :
    Run zero cap := ⟨(r.push a ha).data, (r.push a ha).nonzero, by simpa [push] using hopen⟩

/-- The run before any letter. -/
def empty (hcap : 0 < cap) : Run zero cap := ⟨[], by simp, hcap⟩

@[simp] theorem close_data (r : Run zero cap) : r.close.data = r.data := rfl

@[simp] theorem push_data (r : Run zero cap) (a : α) (ha : a ≠ zero) :
    (r.push a ha).data = r.data ++ [a] := rfl

@[simp] theorem extend_data (r : Run zero cap) (a : α) (ha : a ≠ zero)
    (hopen : r.data.length + 1 < cap) : (r.extend a ha hopen).data = r.data ++ [a] := rfl

@[simp] theorem empty_data (hcap : 0 < cap) : (empty hcap : Run zero cap).data = [] := rfl

/-- A run closed early is not a full block. -/
theorem close_open (r : Run zero cap) : ¬ r.close.Full := by
  have := r.short
  simp only [Block.Full, close_data]
  omega

/-- A run that can take one letter only is a full block with it. -/
theorem push_full (r : Run zero cap) {a : α} (ha : a ≠ zero)
    (hfull : ¬ r.data.length + 1 < cap) : (r.push a ha).Full := by
  have := r.short
  simp only [Block.Full, push_data, List.length_append, List.length_singleton]
  omega

theorem close_text (r : Run zero cap) : r.close.text = r.data ++ [zero] :=
  Block.text_open r.close_open

end Run

section Split

variable [DecidableEq α] (hcap : 0 < cap)

/-- Cut a text into blocks, `open_` being the letters of the block begun. A
block begun and not ended is closed; an empty one is dropped. -/
def splitFrom (open_ : Run zero cap) : List α → List (Block zero cap)
  | [] => if open_.data = [] then [] else [open_.close]
  | a :: rest =>
      if ha : a = zero then open_.close :: splitFrom (.empty hcap) rest
      else if hopen : open_.data.length + 1 < cap then
        splitFrom (open_.extend a ha hopen) rest
      else open_.push a ha :: splitFrom (.empty hcap) rest

/-- The blocks of a text. -/
def split (x : List α) : List (Block zero cap) := splitFrom hcap (.empty hcap) x

/-- The letters of the block begun when the text ends. -/
def openFrom (open_ : Run zero cap) : List α → Run zero cap
  | [] => open_
  | a :: rest =>
      if ha : a = zero then openFrom (.empty hcap) rest
      else if hopen : open_.data.length + 1 < cap then openFrom (open_.extend a ha hopen) rest
      else openFrom (.empty hcap) rest

/-- Splitting keeps the text, and adds a `zero` where it stops inside a block. -/
theorem text_splitFrom (open_ : Run zero cap) (x : List α) :
    text (splitFrom hcap open_ x) =
      open_.data ++ x ++ (if (openFrom hcap open_ x).data = [] then [] else [zero]) := by
  induction x generalizing open_ with
  | nil =>
      unfold splitFrom openFrom
      split
      next hempty => simp [hempty]
      next hopen => simp [Run.close_text]
  | cons a rest ih =>
      unfold splitFrom openFrom
      split
      next ha =>
        rw [text_cons, ih, Run.close_text, ha]
        simp
      next ha =>
        split
        next hopen =>
          rw [ih]
          simp
        next hfull =>
          rw [text_cons, ih, Block.text_full (Run.push_full open_ ha hfull)]
          simp

theorem text_split (x : List α) :
    text (split hcap x : List (Block zero cap)) =
      x ++ (if (openFrom hcap (.empty hcap) x : Run zero cap).data = [] then [] else [zero]) := by
  simpa [split] using text_splitFrom hcap (.empty hcap) x

/-- A text of `n` letters has no more than `n / cap` full blocks. -/
theorem fullCount_splitFrom_le (open_ : Run zero cap) (x : List α) :
    cap * fullCount (splitFrom hcap open_ x) ≤ open_.data.length + x.length := by
  induction x generalizing open_ with
  | nil =>
      unfold splitFrom
      split
      · simp
      · rw [fullCount_cons, if_neg (Run.close_open open_)]
        simp
  | cons a rest ih =>
      unfold splitFrom
      have hempty := ih (.empty hcap)
      rw [Run.empty_data, List.length_nil] at hempty
      rw [List.length_cons]
      split
      next ha =>
        rw [fullCount_cons, if_neg (Run.close_open open_), Nat.add_zero]
        omega
      next ha =>
        split
        next hopen =>
          have hextend := ih (open_.extend a ha hopen)
          rw [Run.extend_data, List.length_append, List.length_singleton] at hextend
          omega
        next hfull =>
          have hshort := open_.short
          rw [fullCount_cons, if_pos (Run.push_full open_ ha hfull), Nat.mul_succ]
          omega

theorem fullCount_split_le (x : List α) :
    cap * fullCount (split hcap x : List (Block zero cap)) ≤ x.length := by
  simpa [split] using fullCount_splitFrom_le hcap (.empty hcap) x

/-- Cutting through the letters of a run only extends it. -/
theorem splitFrom_append_data (open_ : Run zero cap) (more rest : List α)
    (hnonzero : zero ∉ more) (hshort : open_.data.length + more.length < cap) :
    ∃ r : Run zero cap, r.data = open_.data ++ more ∧
      splitFrom hcap open_ (more ++ rest) = splitFrom hcap r rest := by
  induction more generalizing open_ with
  | nil => exact ⟨open_, by simp, rfl⟩
  | cons a more ih =>
      have ha : a ≠ zero := fun heq => hnonzero (heq ▸ List.mem_cons_self)
      have hmore : zero ∉ more := fun hmem => hnonzero (List.mem_cons_of_mem _ hmem)
      simp only [List.length_cons] at hshort
      have hopen : open_.data.length + 1 < cap := by omega
      obtain ⟨r, hr, hsplit⟩ := ih (open_.extend a ha hopen) hmore (by simp; omega)
      refine ⟨r, by simpa using hr, ?_⟩
      rw [List.cons_append, splitFrom, dif_neg ha, dif_pos hopen, hsplit]

/-- The splitter takes one block's text off the front of a text. -/
theorem split_block_text (b : Block zero cap) (rest : List α) :
    split hcap (b.text ++ rest) = b :: split hcap rest := by
  unfold split
  by_cases hfull : b.Full
  · -- the last letter of a full block is the one that ends it
    obtain ⟨front, last, hdata⟩ : ∃ front last, b.data = front ++ [last] := by
      rcases List.eq_nil_or_concat' b.data with hnil | hconcat
      · simp only [Block.Full, hnil, List.length_nil] at hfull
        omega
      · exact hconcat
    have hlength : front.length + 1 = cap := by
      have : b.data.length = cap := hfull
      rw [hdata] at this
      simpa using this
    have hnonzero := b.nonzero
    rw [hdata, List.mem_append, List.mem_singleton, not_or] at hnonzero
    obtain ⟨r, hr, hsplit⟩ := splitFrom_append_data hcap (.empty hcap) front (last :: rest)
      hnonzero.1 (by simp; omega)
    rw [Run.empty_data, List.nil_append] at hr
    have hlast : last ≠ zero := fun heq => hnonzero.2 heq.symm
    have hstop : ¬ r.data.length + 1 < cap := by rw [hr]; omega
    rw [Block.text_full hfull, hdata, List.append_assoc, List.singleton_append, hsplit,
      splitFrom, dif_neg hlast, dif_neg hstop]
    congr 1
    exact Block.ext (by simp [hr, hdata])
  · have hshort : b.data.length < cap := Nat.lt_of_le_of_ne b.short hfull
    obtain ⟨r, hr, hsplit⟩ := splitFrom_append_data hcap (.empty hcap) b.data (zero :: rest)
      b.nonzero (by simpa using hshort)
    rw [Run.empty_data, List.nil_append] at hr
    rw [Block.text_open hfull, List.append_assoc, List.singleton_append, hsplit, splitFrom,
      dif_pos rfl]
    congr 1
    exact Block.ext (by simp [hr])

/-- Splitting a sequence's text gives the sequence back. -/
theorem split_text (blocks : List (Block zero cap)) : split hcap (text blocks) = blocks := by
  induction blocks with
  | nil => simp [split, splitFrom]
  | cons b rest ih => rw [text_cons, split_block_text, ih]

include hcap in
/-- A text has one sequence of blocks at most. -/
theorem text_injective :
    Function.Injective (text : List (Block zero cap) → List α) :=
  Function.LeftInverse.injective (split_text hcap)

/-! ## Where a text stops -/

/-- The number of letters after the last `zero`. -/
def tailLength (zero : α) (x : List α) : Nat := (x.reverse.takeWhile (· ≠ zero)).length

theorem tailLength_nil : tailLength zero ([] : List α) = 0 := rfl

theorem tailLength_append_zero (x : List α) : tailLength zero (x ++ [zero]) = 0 := by
  simp [tailLength]

theorem tailLength_append_of_ne (x : List α) {a : α} (ha : a ≠ zero) :
    tailLength zero (x ++ [a]) = tailLength zero x + 1 := by
  simp [tailLength, ha]

theorem openFrom_append (open_ : Run zero cap) (x y : List α) :
    openFrom hcap open_ (x ++ y) = openFrom hcap (openFrom hcap open_ x) y := by
  induction x generalizing open_ with
  | nil => rfl
  | cons a rest ih =>
      simp only [List.cons_append, openFrom]
      split
      · exact ih _
      · split
        · exact ih _
        · exact ih _

/-- The block begun at the end of a text holds the tail's length modulo `cap`. -/
theorem openFrom_length (x : List α) :
    (openFrom hcap (.empty hcap) x : Run zero cap).data.length = tailLength zero x % cap := by
  induction x using List.reverseRecOn with
  | nil => simp [openFrom, tailLength_nil]
  | append_singleton x a ih =>
      rw [openFrom_append]
      simp only [openFrom]
      split
      next ha =>
        rw [ha, tailLength_append_zero]
        simp
      next ha =>
        rw [tailLength_append_of_ne _ ha]
        split
        next hopen =>
          rw [Run.extend_data, List.length_append, List.length_singleton, ih]
          rw [ih] at hopen
          rw [Nat.add_mod, Nat.mod_eq_of_lt (show 1 < cap by omega), Nat.mod_eq_of_lt hopen]
        next hfull =>
          rw [ih] at hfull
          have hlt := Nat.mod_lt (tailLength zero x) hcap
          have hmod : tailLength zero x % cap + 1 = cap := by omega
          rw [Run.empty_data, List.length_nil, ← Nat.mod_add_mod, hmod, Nat.mod_self]

/-- The splitter adds nothing exactly to the texts that stop at a block's end. -/
theorem text_split_eq_iff (x : List α) :
    text (split hcap x : List (Block zero cap)) = x ↔ cap ∣ tailLength zero x := by
  rw [text_split, Nat.dvd_iff_mod_eq_zero, ← openFrom_length hcap x, List.length_eq_zero_iff]
  split
  next hempty => simp [hempty]
  next hopen => simp [hopen]

theorem text_split_of_dvd {x : List α} (hdvd : cap ∣ tailLength zero x) :
    text (split hcap x : List (Block zero cap)) = x := (text_split_eq_iff hcap x).mpr hdvd

theorem text_split_of_not_dvd {x : List α} (hdvd : ¬ cap ∣ tailLength zero x) :
    text (split hcap x : List (Block zero cap)) = x ++ [zero] := by
  rw [text_split]
  rw [Nat.dvd_iff_mod_eq_zero, ← openFrom_length hcap x, List.length_eq_zero_iff] at hdvd
  rw [if_neg hdvd]

/-- What a text is sent as: its letters, one more for a full block, and one for a
block that the text stops inside. -/
theorem wire_split_length (code : Nat → α) (x : List α) :
    (wire code (split hcap x : List (Block zero cap))).length =
      x.length + fullCount (split hcap x : List (Block zero cap)) +
        if cap ∣ tailLength zero x then 0 else 1 := by
  rw [wire_length_eq]
  by_cases hdvd : cap ∣ tailLength zero x
  · rw [text_split_of_dvd hcap hdvd, if_pos hdvd]
    rfl
  · rw [text_split_of_not_dvd hcap hdvd, if_neg hdvd, List.length_append, List.length_singleton]
    omega

/-- Two texts have the same blocks exactly when one is the other, or the other
with the `zero` that splitting adds. -/
theorem split_append_zero_eq_iff (x : List α) :
    split hcap (x ++ [zero]) = (split hcap x : List (Block zero cap)) ↔
      ¬ cap ∣ tailLength zero x := by
  have hzero : cap ∣ tailLength zero (x ++ [zero]) := by
    rw [tailLength_append_zero]
    exact Nat.dvd_zero cap
  constructor
  · intro hsplit hdvd
    have htext := congrArg text hsplit
    rw [text_split_of_dvd hcap hzero, text_split_of_dvd hcap hdvd] at htext
    simp at htext
  · intro hdvd
    apply text_injective hcap
    rw [text_split_of_dvd hcap hzero, text_split_of_not_dvd hcap hdvd]

end Split

end Stuffing
