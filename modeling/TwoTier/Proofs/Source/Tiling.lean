import Mathlib.Data.List.TakeWhile
import TwoTier.Proofs.Source.Places

/-! # Tokens and faults cover a text

Whether a piece of a text is a token, and which one, is decided by its own characters: what follows
only says where the piece ends. So the spans of tokens and faults leave out nothing but blanks and
comments, do not overlap, and what lies under the span of a token is that token again when it is
read alone.
-/

namespace TwoTier.Source

variable {c : Char} {cs : List Char}

theorem takeWhile_take_add (p : Char → Bool) (cs : List Char) (n : Nat) :
    (cs.take ((cs.takeWhile p).length + n)).takeWhile p = cs.takeWhile p := by
  induction cs with
  | nil => simp
  | cons c cs ih =>
    by_cases hc : p c = true
    · simp only [List.takeWhile_cons, hc, if_true, List.length_cons, Nat.succ_add,
        List.take_succ_cons, ih]
    · cases n <;> simp [hc]

theorem take_takeWhile (p : Char → Bool) : cs.take (cs.takeWhile p).length = cs.takeWhile p :=
  (List.prefix_iff_eq_take.mp (List.takeWhile_prefix p)).symm

theorem fractionLength_take (n : Nat) :
    fractionLength (cs.take (fractionLength cs + n)) = fractionLength cs := by
  fun_cases fractionLength cs with
  | case1 cs hdigits =>
    have hnone := takeWhile_take_add Decimal.isDigit cs (n - 1)
    rw [hdigits, Nat.zero_add] at hnone
    cases n with
    | zero => rfl
    | succ n =>
      simp only [Nat.zero_add, List.take_succ_cons, fractionLength]
      rw [Nat.add_sub_cancel] at hnone
      rw [hnone, hdigits]
  | case2 cs k hdigits =>
    have hsome := takeWhile_take_add Decimal.isDigit cs n
    rw [hdigits] at hsome
    have hlength : k + 2 + n = k + 1 + n + 1 := by omega
    rw [hlength, List.take_succ_cons, fractionLength, hsome, hdigits]
  | case3 cs hpoint =>
    cases cs with
    | nil => simp [fractionLength]
    | cons c cs =>
      have hc : c ≠ '.' := fun h => hpoint cs (by rw [h])
      cases n <;> simp [fractionLength, hc]

theorem exponent?_digits {mark : Char} {sign ds : List Char}
    (hmark : (mark = 'e' || mark = 'E') = true) (hsign : sign = ['+'] ∨ sign = ['-'] ∨ sign = [])
    (hds : ∀ d ∈ ds, Decimal.isDigit d = true) (hne : ds ≠ []) :
    Decimal.exponent? (mark :: sign ++ ds) =
      some (if sign = ['-'] then -(Decimal.natOfDigits ds : Int) else Decimal.natOfDigits ds,
        mark :: sign ++ ds, []) := by
  obtain ⟨d, ds, rfl⟩ := List.exists_cons_of_ne_nil hne
  have htake : (d :: ds).takeWhile Decimal.isDigit = d :: ds := List.takeWhile_eq_self_iff.mpr hds
  have hdrop : (d :: ds).dropWhile Decimal.isDigit = [] := List.dropWhile_eq_nil_iff.mpr hds
  obtain rfl | rfl | rfl := hsign
  · simp only [Decimal.exponent?, List.cons_append, List.nil_append, if_pos hmark, htake, hdrop]
  · simp only [Decimal.exponent?, List.cons_append, List.nil_append, if_pos hmark, htake, hdrop]
  · have hd := hds d List.mem_cons_self
    have hplus : d ≠ '+' := by rintro rfl; exact absurd hd (by decide)
    have hminus : d ≠ '-' := by rintro rfl; exact absurd hd (by decide)
    simp [Decimal.exponent?, hmark, hplus, hminus, htake, hdrop]

theorem exponent?_take {e : Int} {text rest : List Char}
    (h : Decimal.exponent? cs = some (e, text, rest)) :
    Decimal.exponent? (cs.take text.length) = some (e, text, []) := by
  revert h
  fun_cases Decimal.exponent? cs with
  | case2 mark cs hmark sign cs' hsign hne =>
    have hcs : cs = sign ++ cs' ∧ (sign = ['+'] ∨ sign = ['-'] ∨ sign = []) := by
      split at hsign <;> cases hsign <;> simp
    rintro ⟨⟩
    have htake : (mark :: cs).take (mark :: sign ++ cs'.takeWhile Decimal.isDigit).length =
        mark :: sign ++ cs'.takeWhile Decimal.isDigit := by
      simp [hcs.1, List.take_append, take_takeWhile]
    rw [htake]
    exact exponent?_digits hmark hcs.2 (fun _ => List.mem_takeWhile_imp) hne
  | _ => rintro ⟨⟩

theorem number_snd (negative : Bool) :
    (number negative cs).2 = (cs.takeWhile Decimal.isDigit).length +
    fractionLength (cs.drop (cs.takeWhile Decimal.isDigit).length) +
      exponentLength (cs.drop ((cs.takeWhile Decimal.isDigit).length +
        fractionLength (cs.drop (cs.takeWhile Decimal.isDigit).length))) := by
  unfold number
  simp only
  split <;> rfl

theorem exponent?_take_length :
    Decimal.exponent? (cs.take (exponentLength cs)) = (Decimal.exponent? cs).map fun r =>
    (r.1, r.2.1, []) := by
  cases h : Decimal.exponent? cs with
  | none =>
    have hlength : exponentLength cs = 0 := by simp only [exponentLength, h]
    rw [hlength]
    rfl
  | some r =>
    have hlength : exponentLength cs = r.2.1.length := by simp only [exponentLength, h]
    rw [hlength, exponent?_take h]
    rfl

theorem number_take (negative : Bool) :
    number negative (cs.take (number negative cs).2) = number negative cs := by
  rw [number_snd]
  generalize hwhole : cs.takeWhile Decimal.isDigit = whole
  generalize hfraction : fractionLength (cs.drop whole.length) = fraction
  generalize htail : cs.drop (whole.length + fraction) = tail
  generalize hds : cs.take (whole.length + fraction + exponentLength tail) = ds
  have hwhole' : ds.takeWhile Decimal.isDigit = whole := by
    rw [← hds, ← hwhole, Nat.add_assoc, takeWhile_take_add]
  have hbehind :
      ds.drop whole.length = (cs.drop whole.length).take (fraction + exponentLength tail) := by
    rw [← hds, List.drop_take, Nat.add_assoc, Nat.add_sub_cancel_left]
  have hfraction' : fractionLength (ds.drop whole.length) = fraction := by
    rw [hbehind, ← hfraction, fractionLength_take]
  have hpoint : (ds.drop whole.length).take fraction = (cs.drop whole.length).take fraction := by
    rw [hbehind, List.take_take, Nat.min_eq_left (Nat.le_add_right _ _)]
  have htail' : ds.drop (whole.length + fraction) = tail.take (exponentLength tail) := by
    rw [← hds, List.drop_take, Nat.add_sub_cancel_left, htail]
  have hexponent : exponentLength (tail.take (exponentLength tail)) = exponentLength tail := by
    rw [exponentLength, exponent?_take_length, exponentLength]
    cases Decimal.exponent? tail <;> rfl
  simp only [number, hwhole, hwhole', hfraction, hfraction', hpoint, htail, htail', hexponent,
    exponent?_take_length]
  cases Decimal.exponent? tail <;> rfl

theorem stringExtent_take : stringExtent (cs.take (stringExtent cs).1) = stringExtent cs := by
  induction cs using stringExtent.induct with
  | case1 => rfl
  | case2 cs => rfl
  | case3 cs => rfl
  | case4 c cs hc n closed hrest ih =>
    have hextent : stringExtent ('\\' :: c :: cs) = (n + 2, closed) := by
      simp [stringExtent, hc, hrest]
    rw [hrest] at ih
    rw [hextent]
    simp [stringExtent, hc, ih]
  | case5 => simp [stringExtent]
  | case6 c cs hquote hescape hc n closed hrest ih =>
    have hextent : stringExtent (c :: cs) = (n + 1, closed) := by
      rw [stringExtent] <;> simp_all
    rw [hrest] at ih
    rw [hextent, List.take_succ_cons, stringExtent] <;> simp_all

theorem string_snd : (string cs).2 = (stringExtent cs).1 := by
  unfold string
  split
  · simp_all
  · split <;> simp_all

theorem string_take : string (cs.take (string cs).2) = string cs := by
  rw [string_snd]
  have hinside : (cs.take (stringExtent cs).1).take ((stringExtent cs).1 - 1) =
      cs.take ((stringExtent cs).1 - 1) := by
    rw [List.take_take, Nat.min_eq_left (Nat.sub_le _ _)]
  simp only [string, stringExtent_take]
  generalize stringExtent cs = extent at *
  obtain ⟨n, _ | _⟩ := extent
  · rfl
  · simp only at hinside
    simp only [hinside]

theorem number_digit (negative : Bool) (cs : List Char) (hc : Decimal.isDigit c = true) :
    ∃ n, (number negative (c :: cs)).2 = n + 1 ∧ number negative (c :: cs.take n) =
    number negative (c :: cs) := by
  have hlength : 0 < (number negative (c :: cs)).2 := by
    rw [number_snd, List.takeWhile_cons, if_pos hc, List.length_cons]
    omega
  obtain ⟨n, hn⟩ := Nat.exists_eq_succ_of_ne_zero hlength.ne'
  refine ⟨n, hn, ?_⟩
  rw [← List.take_succ_cons, ← Nat.succ_eq_add_one, ← hn, number_take]

theorem minus_take : minus (cs.take (minus cs).2) = minus cs := by
  fun_cases minus cs with
  | case1 => rfl
  | case2 c cs harrow hc =>
    obtain ⟨n, hn, htake⟩ := number_digit true cs hc
    rw [hn, List.take_succ_cons, ← htake]
    simp [minus, hc]
  | case3 => rfl
  | case4 => rfl

/-- A piece is decided by its own characters. -/
theorem front_take : front c (cs.take (front c cs).2) = front c cs := by
  have hrun : ∀ p, (cs.take (cs.takeWhile p).length).takeWhile p = cs.takeWhile p :=
    fun p => takeWhile_take_add p cs 0
  fun_cases front c cs with
  | case1 hblank => rw [front, if_pos hblank, hrun]
  | case2 hblank hhash => rw [front, if_neg hblank, if_pos hhash, hrun]
  | case3 hblank hhash hname rest =>
    simp only [front, if_neg hblank, if_neg hhash, if_pos hname, rest, hrun]
  | case4 hblank hhash hname hdigit piece length hnumber =>
    obtain ⟨n, hn, htake⟩ := number_digit false cs hdigit
    rw [hnumber] at hn htake
    have hlength : length - 1 = n := by
      rw [show length = n + 1 from hn, Nat.add_sub_cancel]
    simp only [front, if_neg hblank, if_neg hhash, if_neg hname, if_pos hdigit, hlength, htake]
  | case5 hblank hhash hname hdigit hminus =>
    rw [front, if_neg hblank, if_neg hhash, if_neg hname, if_neg hdigit, if_pos hminus, minus_take]
  | case6 hblank hhash hname hdigit hminus hquote =>
    rw [front, if_neg hblank, if_neg hhash, if_neg hname, if_neg hdigit, if_neg hminus,
      if_pos hquote, string_take]
  | case7 hblank hhash hname hdigit hminus hquote s hs =>
    simp only [front, if_neg hblank, if_neg hhash, if_neg hname, if_neg hdigit, if_neg hminus,
      if_neg hquote, hs]
  | case8 hblank hhash hname hdigit hminus hquote hs =>
    simp only [front, if_neg hblank, if_neg hhash, if_neg hname, if_neg hdigit, if_neg hminus,
      if_neg hquote, hs]

section Pieces

variable {n : Nat} {p : Piece × List Char}

theorem exists_front (h : p ∈ piecesFrom n cs) :
    ∃ c rest, p = ((front c rest).1, c :: rest.take (front c rest).2) := by
  induction n, cs using piecesFrom.induct with
  | case1 => cases h
  | case2 n c cs ih => exact ih h
  | case3 c cs piece n hfront ih =>
    rw [piecesFrom, hfront] at h
    obtain rfl | h := List.mem_cons.mp h
    · exact ⟨c, cs, by rw [hfront]⟩
    · exact ih h

theorem piece_ne_nil (h : p ∈ piecesFrom n cs) : p.2 ≠ [] := by
  obtain ⟨c, rest, rfl⟩ := exists_front h
  exact List.cons_ne_nil _ _

theorem piecesFrom_piece (h : p ∈ piecesFrom n cs) : piecesFrom 0 p.2 = [p] := by
  obtain ⟨c, rest, rfl⟩ := exists_front h
  simp only [piecesFrom, front_take, piecesFrom_drop (front c rest).2, List.drop_take, Nat.sub_self,
    List.take_zero, List.take_take, Nat.min_self]

theorem number_ne_filler (negative : Bool) (cs : List Char) : (number negative cs).1 ≠ .filler := by
  unfold number
  simp only
  split
  · generalize Whole.inRange _ = small
    cases small <;> simp
  · simp

theorem minus_ne_filler : (minus cs).1 ≠ .filler := by
  fun_cases minus cs with
  | case2 => exact number_ne_filler true _
  | _ => rintro ⟨⟩

theorem string_ne_filler : (string cs).1 ≠ .filler := by
  fun_cases string cs <;> rintro ⟨⟩

/-- Fillers are runs of blanks and comments. -/
theorem filler_piece (h : p ∈ piecesFrom n cs) (hp : p.1 = .filler) :
    (∀ d ∈ p.2, isBlank d = true) ∨ ∃ comment, p.2 = '#' :: comment ∧ '\n' ∉ comment := by
  obtain ⟨c, rest, rfl⟩ := exists_front h
  revert hp
  fun_cases front c rest with
  | case1 hblank =>
    rintro -
    left
    simpa [take_takeWhile, hblank] using fun d => List.mem_takeWhile_imp
  | case2 hblank hhash =>
    rintro -
    right
    refine ⟨_, by rw [hhash], fun hmem => ?_⟩
    rw [take_takeWhile] at hmem
    simpa using List.mem_takeWhile_imp hmem
  | case4 hblank hhash hname hdigit piece length hnumber =>
    have hne := number_ne_filler false (c :: rest)
    rw [hnumber] at hne
    exact fun hp => absurd hp hne
  | case5 => exact fun hp => absurd hp minus_ne_filler
  | case6 => exact fun hp => absurd hp string_ne_filler
  | _ => rintro ⟨⟩

end Pieces

/-- One of the spans ends before the other begins. -/
def Apart (s t : Span) : Prop :=
  s.stop ≤ t.start ∨ t.stop ≤ s.start

theorem Apart.symm {s t : Span} (h : Apart s t) : Apart t s :=
  Or.symm h

def behind (before text : List Char) : Span :=
  ⟨byteLength before, byteLength (before ++ text)⟩

/-- A piece lies at a span, where the pieces follow the text `lead`. -/
inductive Lies : (lead : List Char) → List (Piece × List Char) → Piece × List Char → Span → Prop
  | head {lead p ps} : Lies lead (p :: ps) p (behind lead p.2)
  | tail {lead q ps p s} : Lies (lead ++ q.2) ps p s → Lies lead (q :: ps) p s

section Lies

variable {lead : List Char} {ps : List (Piece × List Char)} {p q : Piece × List Char}
    {s t : Span} {n : Nat}

namespace Lies

theorem mem (h : Lies lead ps p s) : p ∈ ps := by
  induction h with
  | head => exact List.mem_cons_self
  | tail _ ih => exact List.mem_cons_of_mem _ ih

theorem le (h : Lies lead ps p s) : byteLength lead ≤ s.start := by
  induction h with
  | head => exact le_rfl
  | tail _ ih => exact le_trans (by simp) ih

theorem split (h : Lies lead ps p s) :
    ∃ before after, lead ++ ps.flatMap Prod.snd = before ++ p.2 ++ after ∧
    s = behind before p.2 := by
  induction h with
  | @head lead p ps => exact ⟨lead, ps.flatMap Prod.snd, by simp, rfl⟩
  | tail _ ih =>
    obtain ⟨before, after, htext, hs⟩ := ih
    exact ⟨before, after, by simpa using htext, hs⟩

theorem eq_or_apart (h : Lies lead ps p s) (h' : Lies lead ps q t) : p = q ∧ s = t ∨ Apart s t := by
  induction h with
  | head =>
    cases h' with
    | head => exact .inl ⟨rfl, rfl⟩
    | tail h' => exact .inr (.inl h'.le)
  | tail h ih =>
    cases h' with
    | head => exact .inr (.inr h.le)
    | tail h' => exact ih h'

end Lies

theorem exists_lies (lead : List Char) (ps : List (Piece × List Char)) (hlead : byteLength lead ≤ n)
    (hn : n < byteLength (lead ++ ps.flatMap Prod.snd)) :
    ∃ p s, Lies lead ps p s ∧ s.start ≤ n ∧ n < s.stop := by
  induction ps generalizing lead with
  | nil =>
    simp only [List.flatMap_nil, List.append_nil] at hn
    omega
  | cons p ps ih =>
    by_cases hp : n < byteLength (lead ++ p.2)
    · exact ⟨p, _, .head, hlead, hp⟩
    · obtain ⟨q, s, hq, hs⟩ := ih (lead ++ p.2) (Nat.not_lt.mp hp) (by simpa using hn)
      exact ⟨q, s, .tail hq, hs⟩

theorem exists_char (text : List Char) (hn : n < byteLength text) :
    ∃ before c after, text = before ++ c :: after ∧ byteLength before ≤ n ∧
    n < byteLength (before ++ [c]) := by
  induction text generalizing n with
  | nil => cases hn
  | cons c text ih =>
    by_cases hc : n < c.utf8Size
    · exact ⟨[], c, text, rfl, Nat.zero_le n, by simpa using hc⟩
    · rw [byteLength_cons] at hn
      obtain ⟨before, d, after, rfl, hle, hlt⟩ := ih (n := n - c.utf8Size) (by omega)
      refine ⟨c :: before, d, after, rfl, ?_, ?_⟩
      · rw [byteLength_cons]
        omega
      · rw [List.cons_append, byteLength_cons]
        omega

def Lexed.marks (found : Lexed) : List Span :=
  found.lexemes.map Lexeme.span ++ found.faults.map LexFault.span

/-- The spans of tokens and faults in order of position. -/
def Lexed.spans (found : Lexed) : List Span :=
  found.marks.mergeSort fun s t => s.start ≤ t.start

theorem Lexed.mem_spans {found : Lexed} : s ∈ found.spans ↔ s ∈ found.marks :=
  (List.mergeSort_perm _ _).mem_iff

theorem locate_lies (lead : List Char) (ps : List (Piece × List Char)) :
    (∀ l ∈ (locate (byteLength lead) ps).lexemes, ∃ text,
    Lies lead ps (.token l.token, text) l.span) ∧
      ∀ f ∈ (locate (byteLength lead) ps).faults, ∃ text, Lies lead ps (.fault, text) f.span ∧
        f.text = String.ofList text := by
  induction ps generalizing lead with
  | nil => exact ⟨by simp [locate], by simp [locate]⟩
  | cons p ps ih =>
    obtain ⟨piece, text⟩ := p
    obtain ⟨ihlexemes, ihfaults⟩ := ih (lead ++ text)
    rw [byteLength_append] at ihlexemes ihfaults
    have hlexemes : ∀ l ∈ (locate (byteLength lead + byteLength text) ps).lexemes,
        ∃ text', Lies lead ((piece, text) :: ps) (.token l.token, text') l.span :=
      fun l hl => (ihlexemes l hl).imp fun _ h => h.tail
    have hfaults : ∀ f ∈ (locate (byteLength lead + byteLength text) ps).faults, ∃ text',
        Lies lead ((piece, text) :: ps) (.fault, text') f.span ∧ f.text = String.ofList text' :=
      fun f hf => (ihfaults f hf).imp fun _ h => ⟨h.1.tail, h.2⟩
    have hhead : Lies lead ((piece, text) :: ps) (piece, text)
        ⟨byteLength lead, byteLength lead + byteLength text⟩ := by
      rw [← byteLength_append]
      exact .head
    cases piece with
    | token => exact ⟨List.forall_mem_cons.mpr ⟨⟨text, hhead⟩, hlexemes⟩, hfaults⟩
    | filler => exact ⟨hlexemes, hfaults⟩
    | fault => exact ⟨hlexemes, List.forall_mem_cons.mpr ⟨⟨text, hhead, rfl⟩, hfaults⟩⟩

theorem lies_of_mem_marks (lead : List Char) (ps : List (Piece × List Char))
    (h : s ∈ (locate (byteLength lead) ps).marks) : ∃ p, p.1 ≠ .filler ∧ Lies lead ps p s := by
  obtain ⟨hlexemes, hfaults⟩ := locate_lies lead ps
  simp only [Lexed.marks, List.mem_append, List.mem_map] at h
  obtain ⟨l, hl, rfl⟩ | ⟨f, hf, rfl⟩ := h
  · obtain ⟨text, htext⟩ := hlexemes l hl
    exact ⟨_, by simp, htext⟩
  · obtain ⟨text, htext, -⟩ := hfaults f hf
    exact ⟨_, by simp, htext⟩

theorem marks_cons (hp : p.1 ≠ .filler) : (locate (byteLength lead) (p :: ps)).marks.Perm
    (behind lead p.2 :: (locate (byteLength (lead ++ p.2)) ps).marks) := by
  obtain ⟨piece, text⟩ := p
  rw [behind, byteLength_append]
  cases piece with
  | token => exact List.Perm.refl _
  | fault => exact List.perm_middle
  | filler => exact absurd rfl hp

theorem marks_filler (hp : p.1 = .filler) :
    (locate (byteLength lead) (p :: ps)).marks = (locate (byteLength (lead ++ p.2)) ps).marks := by
  obtain ⟨_, text⟩ := p
  subst hp
  rw [byteLength_append]
  rfl

theorem Lies.mem_marks (h : Lies lead ps p s) (hp : p.1 ≠ .filler) :
    s ∈ (locate (byteLength lead) ps).marks := by
  induction h with
  | head => exact (marks_cons hp).mem_iff.mpr List.mem_cons_self
  | @tail lead q ps p s _ ih =>
    by_cases hq : q.1 = .filler
    · rw [marks_filler hq]
      exact ih hp
    · exact (marks_cons hq).mem_iff.mpr (List.mem_cons_of_mem _ (ih hp))

theorem marks_apart (lead : List Char) (ps : List (Piece × List Char)) :
    (locate (byteLength lead) ps).marks.Pairwise Apart := by
  induction ps generalizing lead with
  | nil => exact List.Pairwise.nil
  | cons p ps ih =>
    by_cases hp : p.1 = .filler
    · rw [marks_filler hp]
      exact ih _
    · refine ((marks_cons hp).pairwise_iff fun h => h.symm).mpr
        (List.pairwise_cons.mpr ⟨fun t ht => ?_, ih _⟩)
      obtain ⟨q, -, hq⟩ := lies_of_mem_marks _ _ ht
      exact .inl hq.le

end Lies

variable {source : String} {s : Span} {p : Piece × List Char} {n : Nat}

/-- Byte `n` is under none of the spans. -/
def Uncovered (spans : List Span) (n : Nat) : Prop :=
  ∀ s ∈ spans, n < s.start ∨ s.stop ≤ n

/-- Byte `n` belongs to a blank, or to a character in the same line as a comment sign at or before
it that is under none of the spans. -/
def Skipped (text : List Char) (spans : List Span) (n : Nat) : Prop :=
  ∃ before c after, text = before ++ c :: after ∧ byteLength before ≤ n ∧
    n < byteLength (before ++ [c]) ∧
    (c ∈ [' ', '\t', '\r', '\n'] ∨ ∃ lead comment, before ++ [c] = lead ++ '#' :: comment ∧
    '\n' ∉ comment ∧
      Uncovered spans (byteLength lead))

def LiesIn (source : String) : Piece × List Char → Span → Prop :=
  Lies [] (pieces source)

theorem LiesIn.split (h : LiesIn source p s) :
    ∃ before after, source.toList = before ++ p.2 ++ after ∧ s = behind before p.2 := by
  have hsplit := Lies.split h
  rwa [List.nil_append, pieces, flatMap_piecesFrom, List.drop_zero] at hsplit

theorem LiesIn.nonempty (h : LiesIn source p s) : s.start < s.stop := by
  obtain ⟨before, after, -, rfl⟩ := h.split
  obtain ⟨c, cs, hcs⟩ := List.exists_cons_of_ne_nil (piece_ne_nil (Lies.mem h))
  have := c.utf8Size_pos
  simp only [behind, hcs, byteLength_append, byteLength_cons]
  omega

theorem LiesIn.within (h : LiesIn source p s) : s.Within source.toList := by
  obtain ⟨before, after, htext, rfl⟩ := h.split
  refine ⟨?_, by simp [behind], ?_⟩
  · rw [htext, List.append_assoc]
    exact boundary_append _ _
  · rw [htext]
    exact boundary_append _ _

theorem lex_piece (h : LiesIn source p s) : lex (String.ofList p.2) = locate 0 [p] := by
  rw [lex, pieces, String.toList_ofList, piecesFrom_piece (Lies.mem h)]

theorem mem_spans_lex : s ∈ (lex source).spans ↔ ∃ p, p.1 ≠ .filler ∧ LiesIn source p s := by
  rw [Lexed.mem_spans]
  constructor
  · exact lies_of_mem_marks [] (pieces source)
  · rintro ⟨p, hp, h⟩
    exact h.mem_marks hp

theorem skipped_of_filler (h : LiesIn source p s) (hp : p.1 = .filler) (hstart : s.start ≤ n)
    (hstop : n < s.stop) :
    Skipped source.toList (lex source).spans n := by
  have huncovered : ∀ k, s.start ≤ k → k < s.stop → Uncovered (lex source).spans k := by
    intro k hk hk' t ht
    obtain ⟨q, hq, hqt⟩ := mem_spans_lex.mp ht
    obtain ⟨rfl, -⟩ | hapart | hapart := h.eq_or_apart hqt
    · exact absurd hp hq
    · exact .inl (by omega)
    · exact .inr (by omega)
  obtain ⟨before, after, htext, rfl⟩ := h.split
  simp only [behind, byteLength_append] at hstart hstop huncovered
  obtain ⟨front, c, back, hp2, hle, hlt⟩ := exists_char (n := n - byteLength before) p.2 (by omega)
  refine ⟨before ++ front, c, back ++ after, by simp [htext, hp2], ?_, ?_, ?_⟩
  · rw [byteLength_append]
    omega
  · rw [byteLength_append] at hlt
    simp only [byteLength_append]
    omega
  · obtain hblank | ⟨comment, hcomment, hline⟩ := filler_piece (Lies.mem h) hp
    · left
      have := hblank c (by simp [hp2])
      simpa [isBlank, or_assoc] using this
    · right
      have hlead : Uncovered (lex source).spans (byteLength before) :=
        huncovered _ le_rfl (by omega)
      rw [hcomment] at hp2
      cases front with
      | nil =>
        obtain ⟨rfl, -⟩ := List.cons.inj hp2
        exact ⟨before, [], by simp, List.not_mem_nil, hlead⟩
      | cons d front =>
        rw [List.cons_append] at hp2
        obtain ⟨rfl, rfl⟩ := List.cons.inj hp2
        refine ⟨before, front ++ [c], by simp, fun hmem => hline ?_, hlead⟩
        simp only [List.mem_append, List.mem_cons, List.not_mem_nil, or_false] at hmem ⊢
        tauto

/-- The spans of tokens and faults are not empty, lie one behind the other between characters of the
text, and leave out only blanks and comments. The text under each of them gives the same token or
fault alone. -/
theorem lex_tiles (source : String) :
    ((lex source).spans.Pairwise fun s t => s.stop ≤ t.start) ∧
    (∀ s ∈ (lex source).spans, s.start < s.stop ∧ s.Within source.toList) ∧
    (∀ n < byteLength source.toList, Uncovered (lex source).spans n →
      Skipped source.toList (lex source).spans n) ∧
    (∀ l ∈ (lex source).lexemes, ∃ before text after, source.toList = before ++ text ++ after ∧
      l.span = behind before text ∧
      lex (String.ofList text) = ⟨[⟨l.token, ⟨0, byteLength text⟩⟩], []⟩) ∧
    ∀ f ∈ (lex source).faults, ∃ before text after, source.toList = before ++ text ++ after ∧
      f.span = behind before text ∧ f.text = String.ofList text ∧
      lex (String.ofList text) = ⟨[], [⟨⟨0, byteLength text⟩, String.ofList text⟩]⟩ := by
  have hspan : ∀ s ∈ (lex source).spans, s.start < s.stop ∧ s.Within source.toList := by
    intro s hs
    obtain ⟨p, -, hp⟩ := mem_spans_lex.mp hs
    exact ⟨hp.nonempty, hp.within⟩
  obtain ⟨hlexemes, hfaults⟩ := locate_lies [] (pieces source)
  refine ⟨?_, hspan, ?_, ?_, ?_⟩
  · -- Sorted spans of which each two are apart lie one behind the other, as none of them is empty.
    have hsorted : (lex source).spans.Pairwise fun s t => decide (s.start ≤ t.start) = true := by
      apply List.pairwise_mergeSort
      · intro s t u hst htu
        simp only [decide_eq_true_eq] at *
        omega
      · intro s t
        simp only [Bool.or_eq_true, decide_eq_true_eq]
        omega
    have hapart : (lex source).spans.Pairwise Apart :=
      ((List.mergeSort_perm _ _).pairwise_iff fun h => h.symm).mpr (marks_apart [] (pieces source))
    refine (hsorted.and hapart).imp_of_mem ?_
    rintro s t hs ht ⟨hle, hst | hts⟩
    · exact hst
    · have := (hspan t ht).1
      simp only [decide_eq_true_eq] at hle
      omega
  · intro n hn huncovered
    obtain ⟨p, s, hp, hstart, hstop⟩ := exists_lies [] (pieces source) (Nat.zero_le n)
      (by rwa [List.nil_append, pieces, flatMap_piecesFrom, List.drop_zero])
    by_cases hfiller : p.1 = .filler
    · exact skipped_of_filler hp hfiller hstart hstop
    · -- The byte would be under the span of this piece.
      obtain hlt | hle := huncovered s (mem_spans_lex.mpr ⟨p, hfiller, hp⟩)
      · omega
      · omega
  · intro l hl
    obtain ⟨text, hl⟩ := hlexemes l hl
    obtain ⟨before, after, htext, hbehind⟩ := LiesIn.split hl
    refine ⟨before, text, after, htext, hbehind, ?_⟩
    simp [lex_piece hl, locate]
  · intro f hf
    obtain ⟨text, hf, hsaid⟩ := hfaults f hf
    obtain ⟨before, after, htext, hbehind⟩ := LiesIn.split hf
    refine ⟨before, text, after, htext, hbehind, hsaid, ?_⟩
    simp [lex_piece hf, locate]

end TwoTier.Source
