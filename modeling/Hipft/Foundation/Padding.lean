import Hipft.Foundation.Stuffing

/-! # Texts with a zero too many

A reader that forgets that full blocks have no `zero` of their own puts one behind
every block. What it reads is right up to the first full block with something behind
it, and goes on being right only where the letters that should follow are zeros
themselves: those of empty blocks.
-/

namespace Stuffing

variable {α : Type} {zero : α} {cap : Nat}

/-- The letters of a sequence with a `zero` behind every block, full or not. -/
def padded (blocks : List (Block zero cap)) : List α := blocks.flatMap fun b => b.data ++ [zero]

@[simp] theorem padded_nil : padded ([] : List (Block zero cap)) = [] := rfl

@[simp] theorem padded_cons (b : Block zero cap) (rest : List (Block zero cap)) :
    padded (b :: rest) = b.data ++ zero :: padded rest := by
  simp [padded]

theorem padded_append (front back : List (Block zero cap)) :
    padded (front ++ back) = padded front ++ padded back := List.flatMap_append

theorem padded_length (code : Nat → α) (blocks : List (Block zero cap)) :
    (padded blocks).length = (wire code blocks).length := by
  induction blocks with
  | nil => rfl
  | cons b rest ih =>
      simp only [padded_cons, wire_cons, List.length_append, List.length_cons, Block.wire_length]
      omega

/-! ## Where the two agree -/

/-- The empty blocks that a sequence starts with. -/
def emptyRun (blocks : List (Block zero cap)) : Nat :=
  (blocks.takeWhile fun b => b.data = []).length

@[simp] theorem emptyRun_nil : emptyRun ([] : List (Block zero cap)) = 0 := rfl

theorem emptyRun_cons_of_empty {b : Block zero cap} (hb : b.data = [])
    (rest : List (Block zero cap)) : emptyRun (b :: rest) = emptyRun rest + 1 := by
  simp [emptyRun, hb]

theorem emptyRun_cons_of_ne {b : Block zero cap} (hb : b.data ≠ [])
    (rest : List (Block zero cap)) : emptyRun (b :: rest) = 0 := by
  simp [emptyRun, hb]

/-- Every full block of `front` ends `len` letters, or the zeros of empty blocks behind
it make up what is left of them. -/
def AgreesUpTo (front : List (Block zero cap)) (len : Nat) : Prop :=
  ∀ before b after, front = before ++ b :: after → b.Full →
    len ≤ (text before).length + cap + emptyRun after

theorem agreesUpTo_nil (len : Nat) : AgreesUpTo ([] : List (Block zero cap)) len := by
  intro before b after hfront
  simp at hfront

theorem agreesUpTo_cons {b : Block zero cap} {rest : List (Block zero cap)} {len : Nat} :
    AgreesUpTo (b :: rest) len ↔
      (b.Full → len ≤ cap + emptyRun rest) ∧ AgreesUpTo rest (len - b.text.length) := by
  constructor
  · intro hagrees
    refine ⟨fun hfull => by simpa using hagrees [] b rest rfl hfull, ?_⟩
    intro before c after hrest hfull
    have hlen := hagrees (b :: before) c after (by rw [hrest, List.cons_append]) hfull
    rw [text_cons, List.length_append] at hlen
    omega
  · rintro ⟨hfirst, hrest⟩ before c after hfront hfull
    cases before with
    | nil =>
        rw [List.nil_append, List.cons.injEq] at hfront
        obtain ⟨rfl, rfl⟩ := hfront
        simpa using hfirst hfull
    | cons d before =>
        rw [List.cons_append, List.cons.injEq] at hfront
        obtain ⟨rfl, hfront⟩ := hfront
        have hlen := hrest before c after hfront hfull
        rw [text_cons, List.length_append]
        omega

/-- Empty blocks are open, so each stands for a letter. -/
theorem emptyRun_append_le (hcap : 0 < cap) (before rest : List (Block zero cap)) :
    emptyRun (before ++ rest) ≤ (text before).length + emptyRun rest := by
  induction before with
  | nil => simp
  | cons b before ih =>
      by_cases hb : b.data = []
      · rw [List.cons_append, emptyRun_cons_of_empty hb, text_cons,
          Block.text_open (Block.open_of_empty hcap hb), List.length_append, List.length_append,
          List.length_singleton]
        omega
      · rw [List.cons_append, emptyRun_cons_of_ne hb]
        exact Nat.zero_le _

theorem agreesUpTo_emptyRun (hcap : 0 < cap) {front : List (Block zero cap)} {len : Nat}
    (hlen : len ≤ emptyRun front) : AgreesUpTo front len := by
  rintro before b after rfl hfull
  have hle := emptyRun_append_le hcap before (b :: after)
  rw [emptyRun_cons_of_ne fun hb => Block.open_of_empty hcap hb hfull] at hle
  omega

theorem take_append_inj (front x y : List α) (len : Nat) :
    (front ++ x).take len = (front ++ y).take len ↔
      x.take (len - front.length) = y.take (len - front.length) := by
  rw [List.take_append, List.take_append, List.append_right_inj]

/-- One `zero` too many in front is told from the text by its first other letter. -/
theorem take_zero_cons_iff (hcap : 0 < cap) (front : List (Block zero cap)) (last : Block zero cap)
    {len : Nat} (hlen : len ≤ (text front ++ last.data).length) :
    (zero :: (padded front ++ last.data)).take len = (text front ++ last.data).take len ↔
      len ≤ emptyRun front := by
  induction front generalizing len with
  | nil =>
      cases len with
      | zero => simp
      | succ len =>
          cases hdata : last.data with
          | nil => simp [hdata] at hlen
          | cons a rest =>
              have ha : zero ≠ a := fun heq => last.nonzero (by rw [hdata, heq]; simp)
              simp [ha]
  | cons b front ih =>
      cases len with
      | zero => simp
      | succ len =>
          cases hdata : b.data with
          | nil =>
              have htext : b.text = [zero] := by
                rw [Block.text_open (Block.open_of_empty hcap hdata), hdata, List.nil_append]
              rw [text_cons, htext, List.append_assoc, List.singleton_append, List.length_cons]
                at hlen
              rw [padded_cons, hdata, emptyRun_cons_of_empty hdata, text_cons, htext,
                List.nil_append, List.append_assoc, List.singleton_append, List.cons_append,
                List.take_succ_cons, List.take_succ_cons, List.cons.injEq, and_iff_right rfl,
                ih (Nat.le_of_succ_le_succ hlen), Nat.add_le_add_iff_right]
          | cons a rest =>
              have ha : zero ≠ a := fun heq => b.nonzero (by rw [hdata, heq]; simp)
              have hne : b.data ≠ [] := by rw [hdata]; simp
              have htext : ∃ tail, b.text = a :: tail := by
                by_cases hfull : b.Full
                · exact ⟨rest, by rw [Block.text_full hfull, hdata]⟩
                · exact ⟨rest ++ [zero], by rw [Block.text_open hfull, hdata, List.cons_append]⟩
              obtain ⟨tail, htext⟩ := htext
              rw [emptyRun_cons_of_ne hne, text_cons, htext]
              simp [ha]

/-- The padded letters and the text agree on a prefix exactly when no full block ends
before it, but for the zeros of empty blocks. -/
theorem take_padded_iff (hcap : 0 < cap) (front : List (Block zero cap)) (last : Block zero cap)
    {len : Nat} (hlen : len ≤ (text front ++ last.data).length) :
    (padded front ++ last.data).take len = (text front ++ last.data).take len ↔
      AgreesUpTo front len := by
  induction front generalizing len with
  | nil => exact iff_of_true rfl (agreesUpTo_nil len)
  | cons b front ih =>
      rw [text_cons, List.append_assoc, List.length_append] at hlen
      rw [agreesUpTo_cons, padded_cons, text_cons, List.append_assoc, List.append_assoc]
      by_cases hfull : b.Full
      -- Behind a full block the padded letters are one ahead.
      · have hlength : b.data.length = cap := hfull
        rw [Block.text_full hfull, hlength] at hlen ⊢
        rw [List.cons_append, take_append_inj, hlength,
          take_zero_cons_iff hcap front last (by omega)]
        constructor
        · intro hempty
          exact ⟨fun _ => by omega, agreesUpTo_emptyRun hcap hempty⟩
        · rintro ⟨hfirst, -⟩
          have hle := hfirst hfull
          omega
      · have hsplit : b.data ++ (zero :: padded front ++ last.data) =
            b.text ++ (padded front ++ last.data) := by
          rw [Block.text_open hfull, List.append_assoc]
          rfl
        rw [hsplit, take_append_inj, ih (by omega)]
        exact (and_iff_right fun h => absurd h hfull).symm

/-- Within the letters of one full block nothing is padded. -/
theorem take_padded_of_le {len : Nat} (hlen : len ≤ cap) (blocks : List (Block zero cap)) :
    (padded blocks).take len = (text blocks).take len := by
  induction blocks generalizing len with
  | nil => rfl
  | cons b rest ih =>
      rw [padded_cons, text_cons]
      by_cases hfull : b.Full
      · have hinside : len ≤ b.data.length := Nat.le_trans hlen (Nat.le_of_eq (Eq.symm hfull))
        rw [Block.text_full hfull, List.take_append_of_le_length hinside,
          List.take_append_of_le_length hinside]
      · have hsplit : b.data ++ zero :: padded rest = b.text ++ padded rest := by
          rw [Block.text_open hfull, List.append_assoc]
          rfl
        rw [hsplit, take_append_inj, ih (Nat.le_trans (Nat.sub_le _ _) hlen)]

/-- A full block ends inside the text, so the two cannot agree beyond it. -/
theorem fullCount_of_agreesUpTo (hcap : 0 < cap) {front : List (Block zero cap)} {len : Nat}
    (hagrees : AgreesUpTo front len) (hlen : (text front).length < len) : fullCount front = 0 := by
  rw [fullCount, List.countP_eq_zero]
  intro b hb
  rw [decide_eq_true_eq]
  intro hfull
  obtain ⟨before, after, rfl⟩ := List.append_of_mem hb
  have hbound := hagrees before b after rfl hfull
  have hempty := emptyRun_append_le hcap after []
  rw [List.append_nil, emptyRun_nil] at hempty
  have hlength : b.data.length = cap := hfull
  rw [text_append, text_cons, Block.text_full hfull, List.length_append, List.length_append,
    hlength] at hlen
  omega

end Stuffing
