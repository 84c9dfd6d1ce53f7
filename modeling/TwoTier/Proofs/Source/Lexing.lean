import Mathlib.Computability.Language
import Mathlib.Order.CompletePartialOrder
import TwoTier.Source.Lexer

/-! # The tokens of written text

Text is put together from pieces, and its tokens are those of the pieces, as long as no name or
number is followed by what would go on with it.
-/

namespace TwoTier.Source

variable {c : Char} {cs rest : List Char} {ts us : List Token}

def clean : List (Piece × List Char) → Option (List Token)
  | [] => some []
  | (.token t, _) :: ps => (clean ps).map (t :: ·)
  | (.filler, _) :: ps => clean ps
  | (.fault, _) :: _ => none

theorem locate_clean {ps : List (Piece × List Char)} (start : Nat) (h : clean ps = some ts) :
    (locate start ps).faults = [] ∧ (locate start ps).lexemes.map Lexeme.token = ts := by
  induction ps generalizing start ts with
  | nil =>
    cases h
    exact ⟨rfl, rfl⟩
  | cons p ps ih =>
    obtain ⟨piece, text⟩ := p
    cases piece with
    | token t =>
      obtain ⟨us, hus, rfl⟩ := Option.map_eq_some_iff.mp h
      obtain ⟨hfaults, htokens⟩ := ih (start + byteLength text) hus
      exact ⟨hfaults, congrArg (t :: ·) htokens⟩
    | filler => exact ih _ h
    | fault => cases h

/-- The tokens of a text, if all of it can be cut into tokens. -/
def tokens? (cs : List Char) : Option (List Token) :=
  clean (piecesFrom 0 cs)

theorem lex_clean {source : String} (h : tokens? source.toList = some ts) :
    (lex source).faults = [] ∧ (lex source).lexemes.map Lexeme.token = ts :=
  locate_clean 0 h

theorem piecesFrom_drop (n : Nat) : piecesFrom n cs = piecesFrom 0 (cs.drop n) := by
  induction cs generalizing n with
  | nil => cases n <;> rfl
  | cons c cs ih =>
    cases n with
    | zero => rfl
    | succ n => exact ih n

theorem tokens?_cons : tokens? (c :: cs) = match (front c cs).1 with
    | .token t => (tokens? (cs.drop (front c cs).2)).map (t :: ·)
    | .filler => tokens? (cs.drop (front c cs).2)
    | .fault => none := by
  rw [tokens?, piecesFrom]
  rcases front c cs with ⟨_ | _ | _, n⟩ <;> simp only [clean, tokens?, piecesFrom_drop n]

theorem tokens?_blank (hc : isBlank c = true) : tokens? (c :: rest) = tokens? rest := by
  have skip : ∀ d cs, isBlank d = true → tokens? (d :: cs) = tokens? (cs.dropWhile isBlank) := by
    intro d cs hd
    have hdrop : cs.drop (cs.takeWhile isBlank).length = cs.dropWhile isBlank := by
      nth_rewrite 2 [← List.takeWhile_append_dropWhile (p := isBlank) (l := cs)]
      exact List.drop_left
    rw [tokens?_cons, front, if_pos hd, ← hdrop]
  rw [skip c rest hc]
  cases rest with
  | nil => rfl
  | cons d cs =>
    by_cases hd : isBlank d = true
    · rw [skip d cs hd, List.dropWhile_cons, if_pos hd]
    · rw [List.dropWhile_cons, if_neg hd]

/-- What does not go on with a name or a number. -/
def Ends (rest : List Char) : Prop :=
  ∀ c ∈ rest.head?, continuesName c = false ∧ c ≠ '.'

theorem takeWhile_ends {p : Char → Bool} (hp : ∀ c, p c = true → continuesName c = true)
    (hcs : ∀ c ∈ cs, p c = true) (hrest : Ends rest) : (cs ++ rest).takeWhile p = cs := by
  rw [List.takeWhile_append_of_pos hcs]
  cases rest with
  | nil => simp
  | cons c rest =>
    have hc : p c = false := by
      by_contra hc
      have := (hrest c rfl).1
      simp [hp c (by simpa using hc)] at this
    simp [hc]

theorem continuesName_of_digit (h : Decimal.isDigit c = true) : continuesName c = true := by
  simp [continuesName, h]

theorem plain_of_continuesName (h : continuesName c = true) : isBlank c = false ∧ c ≠ '#' := by
  constructor
  · by_contra hc
    simp only [isBlank, Bool.not_eq_false, Bool.or_eq_true, decide_eq_true_eq] at hc
    obtain ((rfl | rfl) | rfl) | rfl := hc <;> revert h <;> decide
  · rintro rfl
    revert h
    decide

theorem not_startsName_of_digit (h : Decimal.isDigit c = true) : startsName c = false := by
  simp only [Decimal.isDigit, startsName, Bool.and_eq_true, decide_eq_true_eq,
    Char.le_def, UInt32.le_iff_toNat_le, Bool.or_eq_false_iff, Bool.and_eq_false_iff,
    decide_eq_false_iff_not] at h ⊢
  obtain ⟨-, hnine⟩ := h
  have nine : '9'.val.toNat = 57 := rfl
  have a : 'a'.val.toNat = 97 := rfl
  have A : 'A'.val.toNat = 65 := rfl
  refine ⟨⟨.inl (by omega), .inl (by omega)⟩, ?_⟩
  rintro rfl
  exact absurd hnine (by decide)

theorem tokens?_word (hc : startsName c = true) (hcs : ∀ d ∈ cs, continuesName d = true)
    (hrest : Ends rest) :
    tokens? (c :: cs ++ rest) = (tokens? rest).map (word (String.ofList (c :: cs)) :: ·) := by
  obtain ⟨hblank, hhash⟩ := plain_of_continuesName (c := c) (by simp [continuesName, hc])
  have htake : (cs ++ rest).takeWhile continuesName = cs := takeWhile_ends (fun _ h => h) hcs hrest
  rw [List.cons_append, tokens?_cons]
  simp [front, hblank, hhash, hc, htake]

theorem number_ends {negative : Bool} {v : Int} (hcs : ∀ d ∈ cs, Decimal.isDigit d = true)
    (hv : v = if negative then -(Decimal.natOfDigits cs : Int) else Decimal.natOfDigits cs)
    (hrange : Whole.inRange v = true) (hrest : Ends rest) :
    number negative (cs ++ rest) = (.token (.int v), cs.length) := by
  have htake : (cs ++ rest).takeWhile Decimal.isDigit = cs :=
    takeWhile_ends (fun _ => continuesName_of_digit) hcs hrest
  have hfraction : fractionLength rest = 0 := by
    cases rest with
    | nil => rfl
    | cons c rest =>
      have hc : c ≠ '.' := (hrest c rfl).2
      unfold fractionLength
      split
      · simp_all
      · rfl
  have hexponent : exponentLength rest = 0 := by
    cases rest with
    | nil => rfl
    | cons c rest =>
      have hmark : ¬ (c = 'e' || c = 'E') = true := by
        intro hc
        simp only [Bool.or_eq_true, decide_eq_true_eq] at hc
        obtain rfl | rfl := hc <;> exact absurd (hrest _ rfl).1 (by decide)
      simp [exponentLength, Decimal.exponent?, hmark]
  simp only [number, htake, List.drop_left, hfraction, hexponent, Nat.add_zero,
    if_true, ← hv, hrange]

theorem natOfDigits_toDigits (n : Nat) : Decimal.natOfDigits (Nat.toDigits 10 n) = n := by
  conv_rhs => rw [← Nat.ofDigitChars_ten_toDigits (n := n), Nat.ofDigitChars_eq_foldl]
  simp only [Decimal.natOfDigits, Nat.mul_comm 10]
  rfl

theorem isDigit_of_mem_toDigits {n : Nat} : ∀ d ∈ Nat.toDigits 10 n, Decimal.isDigit d = true :=
  fun _ hd => Nat.isDigit_of_mem_toDigits (by decide) (by decide) hd

theorem exists_toDigits (n : Nat) :
    ∃ d ds, Nat.toDigits 10 n = d :: ds ∧ Decimal.isDigit d = true := by
  obtain ⟨d, ds, h⟩ := List.exists_cons_of_ne_nil (Nat.toDigits_ne_nil (n := n) (b := 10))
  exact ⟨d, ds, h, isDigit_of_mem_toDigits (n := n) d (by simp [h])⟩

theorem toList_ofNat (n : Nat) : (toString (Int.ofNat n)).toList = Nat.toDigits 10 n := by
  change (toString n).toList = _
  rw [Nat.toString_eq_ofList_toDigits, String.toList_ofList]

theorem toList_negSucc (n : Nat) :
    (toString (Int.negSucc n)).toList = '-' :: Nat.toDigits 10 (n + 1) := by
  change ("-" ++ toString (n + 1)).toList = _
  rw [String.toList_append, Nat.toString_eq_ofList_toDigits]
  simp

theorem tokens?_int {v : Int} (hv : Whole.inRange v = true) (hrest : Ends rest) :
    tokens? ((toString v).toList ++ rest) = (tokens? rest).map (.int v :: ·) := by
  cases v with
  | ofNat n =>
    have hnumber :
        number false (Nat.toDigits 10 n ++ rest) = (.token (.int n), (Nat.toDigits 10 n).length) :=
      number_ends isDigit_of_mem_toDigits (by simp [natOfDigits_toDigits]) hv hrest
    obtain ⟨d, ds, hds, hd⟩ := exists_toDigits n
    obtain ⟨hblank, hhash⟩ := plain_of_continuesName (continuesName_of_digit hd)
    rw [hds] at hnumber
    rw [toList_ofNat, hds, List.cons_append, tokens?_cons]
    simp only [List.cons_append] at hnumber
    simp [front, hblank, hhash, not_startsName_of_digit hd, hd, hnumber]
  | negSucc n =>
    have hnumber : number true (Nat.toDigits 10 (n + 1) ++ rest) =
        (.token (.int (Int.negSucc n)), (Nat.toDigits 10 (n + 1)).length) :=
      number_ends isDigit_of_mem_toDigits (by simp [natOfDigits_toDigits, Int.negSucc_eq]) hv hrest
    obtain ⟨d, ds, hds, hd⟩ := exists_toDigits (n + 1)
    have hminus : minus (d :: (ds ++ rest)) = number true (d :: (ds ++ rest)) := by
      have harrow : d ≠ '>' := by
        rintro rfl
        exact absurd hd (by decide)
      unfold minus
      split
      · simp_all
      · simp_all
      · simp_all
    rw [hds] at hnumber
    rw [toList_negSucc, hds, List.cons_append, tokens?_cons]
    simp only [List.cons_append] at hnumber
    have hfront : front '-' (d :: (ds ++ rest)) = minus (d :: (ds ++ rest)) := by
      simp [front, isBlank, startsName, Decimal.isDigit]
    simp [hfront, hminus, hnumber]

/-- Text that is cut into lexemes of the language, whatever follows. -/
def Cuts (s : String) (P : Language Lexeme) : Prop :=
  ∃ ts, (∀ rest, tokens? (s.toList ++ rest) = (tokens? rest).map (ts ++ ·)) ∧
    ∀ ls, ls.map Lexeme.token = ts → ls ∈ P

/-- Text that is cut into lexemes of the language, unless what follows goes on with the last one. -/
def Lexes (s : String) (P : Language Lexeme) : Prop :=
  ∃ ts, (∀ rest, Ends rest → tokens? (s.toList ++ rest) = (tokens? rest).map (ts ++ ·)) ∧
    ∀ ls, ls.map Lexeme.token = ts → ls ∈ P

/-- Text that does not go on with what it follows. -/
def Begins (s : String) : Bool :=
  match s.toList with
  | c :: _ => !continuesName c && c != '.'
  | [] => false

theorem ends_of_begins {s : String} (h : Begins s = true) (rest : List Char) :
    Ends (s.toList ++ rest) := by
  unfold Begins at h
  split at h
  · rename_i c cs hcs
    rw [hcs]
    rintro d ⟨⟩
    simpa using h
  · cases h

section Text

variable {s r : String} {P Q : Language Lexeme}

theorem Cuts.lexes (h : Cuts s P) : Lexes s P := by
  obtain ⟨ts, hts, hP⟩ := h
  exact ⟨ts, fun rest _ => hts rest, hP⟩

theorem Lexes.mono (h : Lexes s P) (hPQ : P ≤ Q) : Lexes s Q := by
  obtain ⟨ts, hts, hP⟩ := h
  exact ⟨ts, hts, fun ls hls => hPQ (hP ls hls)⟩

theorem Cuts.mono (h : Cuts s P) (hPQ : P ≤ Q) : Cuts s Q := by
  obtain ⟨ts, hts, hP⟩ := h
  exact ⟨ts, hts, fun ls hls => hPQ (hP ls hls)⟩

theorem mem_mul_of_tokens {ls : List Lexeme} (hP : ∀ ls, ls.map Lexeme.token = ts → ls ∈ P)
    (hQ : ∀ ls, ls.map Lexeme.token = us → ls ∈ Q) (h : ls.map Lexeme.token = ts ++ us) :
    ls ∈ P * Q := by
  obtain ⟨ks, ms, rfl, hks, hms⟩ := List.map_eq_append_iff.mp h
  exact Language.append_mem_mul (hP ks hks) (hQ ms hms)

theorem Cuts.append (h : Cuts s P) (h' : Cuts r Q) : Cuts (s ++ r) (P * Q) := by
  obtain ⟨ts, hts, hP⟩ := h
  obtain ⟨us, hus, hQ⟩ := h'
  refine ⟨ts ++ us, fun rest => ?_, fun ls => mem_mul_of_tokens hP hQ⟩
  rw [String.toList_append, List.append_assoc, hts, hus, Option.map_map]
  simp [Function.comp_def]

theorem Cuts.append_lexes (h : Cuts s P) (h' : Lexes r Q) : Lexes (s ++ r) (P * Q) := by
  obtain ⟨ts, hts, hP⟩ := h
  obtain ⟨us, hus, hQ⟩ := h'
  refine ⟨ts ++ us, fun rest hrest => ?_, fun ls => mem_mul_of_tokens hP hQ⟩
  rw [String.toList_append, List.append_assoc, hts, hus rest hrest, Option.map_map]
  simp [Function.comp_def]

theorem Lexes.append_cuts (h : Lexes s P) (hs : Begins r = true) (h' : Cuts r Q) :
    Cuts (s ++ r) (P * Q) := by
  obtain ⟨ts, hts, hP⟩ := h
  obtain ⟨us, hus, hQ⟩ := h'
  refine ⟨ts ++ us, fun rest => ?_, fun ls => mem_mul_of_tokens hP hQ⟩
  rw [String.toList_append, List.append_assoc, hts _ (ends_of_begins hs rest), hus, Option.map_map]
  simp [Function.comp_def]

end Text

def signs? : List Char → Option (List Token)
  | [] => some []
  | '-' :: '>' :: cs => (signs? cs).map (.symbol .arrow :: ·)
  | c :: cs =>
    if isBlank c then signs? cs
    else match sign? c with
      | some t => (signs? cs).map (.symbol t :: ·)
      | none => none

theorem tokens?_sign {t : Symbol} (h : sign? c = some t) :
    tokens? (c :: rest) = (tokens? rest).map (.symbol t :: ·) := by
  have hfront : front c rest = (.token (.symbol t), 0) := by
    unfold sign? at h
    split at h <;> cases h <;> rfl
  rw [tokens?_cons, hfront]
  rfl

theorem tokens?_arrow :
    tokens? ('-' :: '>' :: rest) = (tokens? rest).map (.symbol .arrow :: ·) := by
  rw [tokens?_cons]
  rfl

theorem tokens?_signs (h : signs? cs = some ts) :
    tokens? (cs ++ rest) = (tokens? rest).map (ts ++ ·) := by
  induction cs using signs?.induct generalizing ts with
  | case1 =>
    cases h
    simp
  | case2 cs ih =>
    obtain ⟨us, hus, rfl⟩ := Option.map_eq_some_iff.mp h
    rw [List.cons_append, List.cons_append, tokens?_arrow, ih hus, Option.map_map]
    rfl
  | case3 c cs _ hc ih =>
    rw [List.cons_append, tokens?_blank hc]
    exact ih (by simpa [signs?, hc] using h)
  | case4 c cs harrow hc t ht ih =>
    have hsigns : (signs? cs).map (.symbol t :: ·) = some ts := by
      rw [← h, signs?]
      · simp [hc, ht]
      · exact harrow
    obtain ⟨us, hus, rfl⟩ := Option.map_eq_some_iff.mp hsigns
    rw [List.cons_append, tokens?_sign ht, ih hus, Option.map_map]
    rfl
  | case5 c cs harrow hc ht =>
    have hnone : signs? (c :: cs) = none := by
      rw [signs?]
      · simp [hc, ht]
      · exact harrow
    cases hnone.symm.trans h

def isWord (x : String) : Bool :=
  match x.toList with
  | c :: cs => startsName c && cs.all continuesName
  | [] => false

theorem word_cases (x : String) : (∃ t, word x = .symbol t) ∨ word x = .name x := by
  unfold word
  split <;> simp

def isName (x : String) : Bool :=
  isWord x && match word x with
    | .name _ => true
    | _ => false

theorem isName_iff {x : String} : isName x = true ↔ isWord x = true ∧ word x = .name x := by
  obtain ⟨t, ht⟩ | ht := word_cases x <;> simp [isName, ht]

theorem eq_of_tokens {ls : List Lexeme} {t : Token} (h : ls.map Lexeme.token = [t]) :
    ∃ s, ls = [⟨t, s⟩] := by
  obtain ⟨⟨_, s⟩, rfl, rfl⟩ := List.map_eq_singleton_iff.mp h
  exact ⟨s, rfl⟩

def single (t : Token) : Language Lexeme :=
  {ls | ∃ s, ls = [⟨t, s⟩]}

section Words

variable {s : String} {t u : Token}

theorem cuts_blank (h : signs? s.toList = some []) : Cuts s 1 :=
  ⟨[], fun _ => tokens?_signs h, fun _ hls => List.map_eq_nil_iff.mp hls⟩

theorem cuts_sign (h : signs? s.toList = some [t]) : Cuts s (single t) :=
  ⟨_, fun _ => tokens?_signs h, fun _ => eq_of_tokens⟩

theorem cuts_signs (h : signs? s.toList = some [t, u]) : Cuts s (single t * single u) :=
  ⟨[t] ++ [u], fun _ => tokens?_signs h,
    fun _ => mem_mul_of_tokens (fun _ => eq_of_tokens) fun _ => eq_of_tokens⟩

theorem lexes_word {x : String} (h : isWord x = true) : Lexes x (single (word x)) := by
  refine ⟨[word x], fun rest hrest => ?_, fun _ => eq_of_tokens⟩
  unfold isWord at h
  split at h
  · rename_i c cs hcs
    simp only [Bool.and_eq_true, List.all_eq_true] at h
    have hx : x = String.ofList (c :: cs) := by rw [← hcs, String.ofList_toList]
    rw [hcs, tokens?_word h.1 h.2 hrest, ← hx]
    rfl
  · cases h

theorem lexes_name {x : String} (h : isName x = true) : Lexes x (single (.name x)) := by
  obtain ⟨hx, hword⟩ := isName_iff.mp h
  exact hword ▸ lexes_word hx

theorem lexes_int {v : Int} (h : Whole.inRange v = true) : Lexes (toString v) (single (.int v)) :=
  ⟨[.int v], fun _ hrest => tokens?_int h hrest, fun _ => eq_of_tokens⟩

theorem cuts_word (before x after : String) (hx : isWord x = true)
    (hbefore : signs? before.toList = some []) (hafter : signs? after.toList = some [])
    (h : Begins after = true) (hs : s = before ++ (x ++ after)) :
    Cuts s (single (word x)) := by
  rw [hs]
  simpa using (cuts_blank hbefore).append ((lexes_word hx).append_cuts h (cuts_blank hafter))

end Words

/-- Tokens that can be written. -/
def Token.Valid : Token → Prop
  | .name x => isName x = true
  | .int v => Whole.inRange v = true
  | _ => True

theorem valid_number {negative : Bool} {t : Token}
    (h : (number negative cs).1 = .token t) : t.Valid := by
  unfold number at h
  simp only at h
  split at h
  · generalize (if negative = true then (-Decimal.natOfDigits (cs.takeWhile Decimal.isDigit) : Int)
      else Decimal.natOfDigits (cs.takeWhile Decimal.isDigit)) = v at h
    by_cases hv : Whole.inRange v = true
    · rw [if_pos hv] at h
      cases h
      exact hv
    · rw [if_neg hv] at h
      cases h
  · cases h
    trivial

theorem valid_word {x : String} (h : isWord x = true) : (word x).Valid := by
  obtain ⟨t, ht⟩ | ht := word_cases x
  · rw [ht]
    trivial
  · rw [ht]
    exact isName_iff.mpr ⟨h, ht⟩

theorem valid_front {t : Token} (h : (front c cs).1 = .token t) : t.Valid := by
  unfold front at h
  split at h
  · cases h
  split at h
  · cases h
  split at h
  · rename_i hc
    cases h
    exact valid_word (by simp [isWord, hc])
  split at h
  · exact valid_number h
  split at h
  · unfold minus at h
    split at h
    · cases h
      trivial
    · split at h
      · exact valid_number h
      · cases h
    · cases h
  split at h
  · unfold string at h
    split at h
    · cases h
    · split at h <;> cases h
      trivial
  · split at h <;> cases h
    trivial

theorem valid_lex {source : String} {l : Lexeme} (h : l ∈ (lex source).lexemes) :
    l.token.Valid := by
  have valid : ∀ cs start n, ∀ l ∈ (locate start (piecesFrom n cs)).lexemes, l.token.Valid := by
    intro cs
    induction cs with
    | nil =>
      intro start n l hl
      cases n <;> cases hl
    | cons c cs ih =>
      intro start n l hl
      cases n with
      | succ n => exact ih start n l hl
      | zero =>
        rw [piecesFrom] at hl
        rcases hfront : front c cs with ⟨piece, n⟩
        rw [hfront] at hl
        cases piece with
        | token t =>
          obtain rfl | hl := List.mem_cons.mp hl
          · exact valid_front (congrArg Prod.fst hfront)
          · exact ih _ n l hl
        | filler => exact ih _ n l hl
        | fault => exact ih _ n l hl
  exact valid _ _ _ l h

end TwoTier.Source
