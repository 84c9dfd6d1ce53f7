import TwoTier.Json.Reader
import TwoTier.Json.Writer
import TwoTier.Proofs.Source.Lexing

/-! # JSON text is read back

A reader takes the compact text of data without fractions for that data if it admits as deep a
nesting, and refuses it otherwise.
-/

namespace TwoTier.Json

open Source

variable {α : Type} {c : Char} {cs rest : List Char} {n : Nat}

/-- No fractions, and whole numbers of at most 64 bits. -/
inductive Exact : Json → Prop where
  | null : Exact .null
  | bool {b : Bool} : Exact (.bool b)
  | int {v : Int} : -9223372036854775808 ≤ v → v < 18446744073709551616 → Exact (.int v)
  | str {s : String} : Exact (.str s)
  | arr {items : List Json} : (∀ j ∈ items, Exact j) → Exact (.arr items)
  | obj {fields : List (String × Json)} : (∀ f ∈ fields, Exact f.2) → Exact (.obj fields)

mutual

def nesting : Json → Nat
  | .null | .bool _ | .int _ | .float _ | .str _ => 0
  | .arr items => nestingItems items + 1
  | .obj fields => nestingFields fields + 1

def nestingItems : List Json → Nat
  | [] => 0
  | j :: js => max (nesting j) (nestingItems js)

def nestingFields : List (String × Json) → Nat
  | [] => 0
  | (_, j) :: fs => max (nesting j) (nestingFields fs)

end

theorem nestingItems_le {items : List Json} {d : Nat} :
    nestingItems items ≤ d ↔ ∀ j ∈ items, j.nesting ≤ d := by
  induction items with
  | nil => simp [nestingItems]
  | cons j js ih => simp [nestingItems, ih]

theorem nestingFields_le {fields : List (String × Json)} {d : Nat} :
    nestingFields fields ≤ d ↔ ∀ f ∈ fields, f.2.nesting ≤ d := by
  induction fields with
  | nil => simp [nestingFields]
  | cons f fs ih => simp [nestingFields, ih]

/-- What may follow a value. -/
def Closes (rest : List Char) : Prop :=
  ∀ c ∈ rest.head?, c = ',' ∨ c = ']' ∨ c = '\x7d'

theorem le_foldl_digits (m : Nat) : m ≤ cs.foldl (fun n c => n * 10 + (c.toNat - 48)) m := by
  induction cs generalizing m with
  | nil => exact Nat.le_refl m
  | cons c cs ih =>
    have hnext : m ≤ m * 10 + (c.toNat - 48) := by omega
    exact Nat.le_trans hnext (ih _)

theorem absorbDigits_eq (h : cs.foldl (fun n c => n * 10 + (c.toNat - 48)) n ≤ maxSignificand) :
    absorbDigits n cs = (cs.foldl (fun n c => n * 10 + (c.toNat - 48)) n, cs.length) := by
  induction cs generalizing n with
  | nil => rfl
  | cons c cs ih =>
    have hnext : n * 10 + (c.toNat - 48) ≤ maxSignificand := Nat.le_trans (le_foldl_digits _) h
    simp only [absorbDigits, if_pos hnext, ih h, List.foldl_cons, List.length_cons]

theorem head_toDigits (hn : 0 < n) : ∀ ds, Nat.toDigits 10 n ≠ '0' :: ds := by
  induction n using Nat.strongRecOn with
  | ind n ih =>
    intro ds h
    by_cases hlt : n < 10
    · rw [Nat.toDigits_of_lt_base hlt] at h
      have hdigit : ∀ n < 10, 0 < n → n.digitChar ≠ '0' := by decide
      exact hdigit n hlt hn (List.cons.inj h).1
    · rw [Nat.toDigits_of_base_le (by decide) (by omega)] at h
      obtain ⟨d, es, hd⟩ := List.exists_cons_of_ne_nil (Nat.toDigits_ne_nil (n := n / 10) (b := 10))
      rw [hd, List.cons_append] at h
      obtain ⟨rfl, -⟩ := List.cons.inj h
      exact ih (n / 10) (by omega) (by omega) es hd

theorem numberTail_toDigits {negative : Bool} (hn : n ≤ maxSignificand) (hrest : Closes rest) :
    numberTail negative (Nat.toDigits 10 n) rest = some (wholeNumber negative n, rest) := by
  have hvalue : (Nat.toDigits 10 n).foldl (fun n c => n * 10 + (c.toNat - 48)) 0 = n :=
    natOfDigits_toDigits n
  have habsorb : absorbDigits 0 (Nat.toDigits 10 n) = (n, (Nat.toDigits 10 n).length) := by
    rw [absorbDigits_eq (by rw [hvalue]; exact hn), hvalue]
  unfold numberTail
  rw [habsorb]
  cases rest with
  | nil => simp
  | cons c rest => rcases hrest c rfl with rfl | rfl | rfl <;> simp

theorem takeWhile_toDigits (hrest : Closes rest) :
    (Nat.toDigits 10 n ++ rest).takeWhile Decimal.isDigit = Nat.toDigits 10 n ∧
      (Nat.toDigits 10 n ++ rest).dropWhile Decimal.isDigit = rest := by
  have hends : rest.takeWhile Decimal.isDigit = [] ∧ rest.dropWhile Decimal.isDigit = rest := by
    cases rest with
    | nil => exact ⟨rfl, rfl⟩
    | cons c rest => rcases hrest c rfl with rfl | rfl | rfl <;> exact ⟨rfl, rfl⟩
  constructor
  · rw [List.takeWhile_append_of_pos isDigit_of_mem_toDigits, hends.1, List.append_nil]
  · rw [List.dropWhile_append_of_pos isDigit_of_mem_toDigits, hends.2]

theorem number_toDigits {b : Bool} (hn : n ≤ maxSignificand) (hrest : Closes rest) :
    number ((if b then ['-'] else []) ++ Nat.toDigits 10 n ++ rest) =
    some (wholeNumber b n, rest) := by
  have htail : numberTail b (Nat.toDigits 10 n) rest = some (wholeNumber b n, rest) :=
    numberTail_toDigits hn hrest
  obtain ⟨htake, hdrop⟩ := takeWhile_toDigits (n := n) hrest
  obtain ⟨d, ds, hd, hdigit⟩ := exists_toDigits n
  have hminus : d ≠ '-' := by
    rintro rfl
    revert hdigit
    decide
  have hzero : ∀ e es, d :: ds ≠ '0' :: e :: es := by
    rintro e es h
    rcases Nat.eq_zero_or_pos n with rfl | hpos
    · simp [← hd, Nat.toDigits_zero] at h
    · exact head_toDigits hpos _ (hd.trans h)
  rw [hd] at htake hdrop htail ⊢
  unfold number
  cases b with
  | true => simp_all
  | false => simp_all

theorem number_int {v : Int} (hlow : -9223372036854775808 ≤ v) (hhigh : v < 18446744073709551616)
    (hrest : Closes rest) : number ((toString v).toList ++ rest) = some (.int v, rest) := by
  cases v with
  | ofNat n =>
    have hn : n ≤ maxSignificand := by
      have hmax : maxSignificand = 18446744073709551615 := by decide
      have hn : (n : Int) < 18446744073709551616 := hhigh
      omega
    have hnumber := number_toDigits (b := false) hn hrest
    rwa [toList_ofNat]
  | negSucc n =>
    have hn : n + 1 ≤ maxSignificand := by
      have hmax : maxSignificand = 18446744073709551615 := by decide
      omega
    have hwhole : wholeNumber true (n + 1) = .int (Int.negSucc n) := by
      have hpow : Nat.pow 2 63 = 9223372036854775808 := by decide
      have hfits : 0 < n + 1 ∧ n + 1 ≤ Nat.pow 2 63 := by omega
      simp [wholeNumber, hfits, Int.negSucc_eq]
    have hnumber := number_toDigits (b := true) hn hrest
    rw [hwhole] at hnumber
    rwa [toList_negSucc]

theorem stringUnits_escapeChar : stringUnits (escapeChar c ++ cs) =
    (stringUnits cs).map fun r => (c.toNat :: r.1, r.2) := by
  have hhex :
      ∀ n < 32, hex4 '0' '0' (Text.hexDigit (n / 16)) (Text.hexDigit (n % 16)) = some n := by
    decide
  have hsimple : ∀ e, simpleEscape e = some c → e ≠ 'u' → stringUnits ('\\' :: e :: cs) =
      (stringUnits cs).map fun r => (c.toNat :: r.1, r.2) := by
    intro e he hu
    rw [stringUnits]
    · simp [he, Option.map_eq_bind]
    · simp [hu]
  unfold escapeChar
  split_ifs with hquote hslash hnewline hreturn htab hback hfeed hcontrol
  · exact hsimple '"' (by rw [hquote]; rfl) (by decide)
  · exact hsimple '\\' (by rw [hslash]; rfl) (by decide)
  · exact hsimple 'n' (by rw [hnewline]; rfl) (by decide)
  · exact hsimple 'r' (by rw [hreturn]; rfl) (by decide)
  · exact hsimple 't' (by rw [htab]; rfl) (by decide)
  · exact hsimple 'b' (by rw [← Char.ofNat_toNat c, hback]; rfl) (by decide)
  · exact hsimple 'f' (by rw [← Char.ofNat_toNat c, hfeed]; rfl) (by decide)
  · simp only [List.cons_append, List.nil_append]
    rw [stringUnits, hhex _ hcontrol]
    simp [Option.map_eq_bind]
  · rw [List.singleton_append, stringUnits]
    · simp [hcontrol, hslash, Option.map_eq_bind]
    all_goals simp_all

theorem joinUnits_toNat : joinUnits (cs.map Char.toNat) = some cs := by
  induction cs with
  | nil => rfl
  | cons c cs ih =>
    have hvalid : c.toNat < 0xd800 ∨ 0xdfff < c.toNat := by
      rcases c.valid with h | h
      · exact .inl h
      · exact .inr h.1
    have hhigh : ¬ (0xd800 ≤ c.toNat ∧ c.toNat < 0xdc00) := by omega
    have hlow : ¬ (0xdc00 ≤ c.toNat ∧ c.toNat < 0xe000) := by omega
    rw [List.map_cons, joinUnits.eq_def]
    simp [hhigh, hlow, ih, Char.ofNat_toNat]

theorem stringUnits_escaped :
    stringUnits (cs.flatMap escapeChar ++ '"' :: rest) = some (cs.map Char.toNat, rest) := by
  induction cs with
  | nil => rfl
  | cons c cs ih =>
    rw [List.flatMap_cons, List.append_assoc, stringUnits_escapeChar, ih, Option.map_some,
      List.map_cons]

theorem toList_quotedText (s : String) :
    (quotedText s).toList = '"' :: (s.toList.flatMap escapeChar ++ ['"']) := by
  simp [quotedText]

theorem string_quotedText (s : String) :
    string ((quotedText s).toList ++ rest) = some (s, rest) := by
  rw [toList_quotedText, List.cons_append, List.append_assoc, List.singleton_append]
  simp [string, stringUnits_escaped, joinUnits_toNat]

/-- The scanner reads the text as `a`, whatever closes it. -/
def Scans (scan : Scan α) (text : List Char) (a : Option α) : Prop :=
  ∀ rest, Closes rest → scan (text ++ rest) = a.map (·, rest)

/-- The text begins with no blank, and not as what closes a list. -/
def Opens (text : List Char) : Prop :=
  ∃ c cs, text = c :: cs ∧ isBlank c = false ∧ c ≠ ']' ∧ c ≠ '\x7d'

theorem Opens.skipBlank {text : List Char} (h : Opens text) :
    skipBlank (text ++ rest) = text ++ rest := by
  obtain ⟨c, cs, rfl, hc, -⟩ := h
  simp [Json.skipBlank, hc]

theorem intercalate_cons {text : List Char} {texts : List (List Char)} :
    [','].intercalate (text :: texts) = text ++ texts.flatMap (',' :: ·) := by
  induction texts generalizing text with
  | nil => simp
  | cons u us ih => simp [List.intercalate_cons_cons, ih]

section Items

variable {item : Scan α} {closing : Char} {texts : List (List Char)} {as : List (Option α)}

theorem closes_flatMap (hclosing : closing = ']' ∨ closing = '\x7d') :
    Closes (texts.flatMap (',' :: ·) ++ closing :: rest) := by
  cases texts with
  | nil => rcases hclosing with rfl | rfl <;> simp [Closes]
  | cons => simp [Closes]

theorem length_le_flatMap : texts.length ≤ (texts.flatMap (',' :: ·)).length := by
  induction texts with
  | nil => exact Nat.le_refl _
  | cons text texts ih =>
    rw [List.flatMap_cons, List.length_append, List.length_cons, List.length_cons]
    omega

theorem moreItems_texts (hclosing : closing = ']' ∨ closing = '\x7d')
    (h : List.Forall₂ (fun text a => Opens text ∧ Scans item text a) texts as)
    (hn : texts.length < n) :
    moreItems item closing n (texts.flatMap (',' :: ·) ++ closing :: rest) =
    (as.mapM id).map (·, rest) := by
  have hblank : skipBlank (closing :: rest) = closing :: rest := by
    rcases hclosing with rfl | rfl <;> rfl
  induction h generalizing n with
  | nil =>
    obtain ⟨n, rfl⟩ := Nat.exists_eq_succ_of_ne_zero (Nat.ne_of_gt hn)
    simp only [List.flatMap_nil, List.nil_append, moreItems, hblank]
    rcases hclosing with rfl | rfl <;> rfl
  | @cons text a texts as h _ ih =>
    obtain ⟨n, rfl⟩ := Nat.exists_eq_succ_of_ne_zero (Nat.ne_of_gt (Nat.zero_lt_of_lt hn))
    have hcomma : ∀ cs, skipBlank (',' :: cs) = ',' :: cs := fun _ => rfl
    simp only [List.flatMap_cons, List.cons_append, List.append_assoc, moreItems, hcomma,
      h.1.skipBlank, h.2 _ (closes_flatMap hclosing)]
    cases a with
    | none => rfl
    | some a =>
      have hmore := ih (Nat.lt_of_succ_lt_succ hn)
      simp only [Option.map_some, Option.bind_eq_bind, Option.bind_some, hmore, List.mapM_cons, id]
      cases as.mapM id <;> rfl

theorem items_texts (hclosing : closing = ']' ∨ closing = '\x7d')
    (h : List.Forall₂ (fun text a => Opens text ∧ Scans item text a) texts as) :
    items item closing ([','].intercalate texts ++ closing :: rest) =
    (as.mapM id).map (·, rest) := by
  cases h with
  | nil => rcases hclosing with rfl | rfl <;> rfl
  | @cons text a texts as h hs =>
    have hlength : texts.length < (texts.flatMap (',' :: ·) ++ closing :: rest).length + 1 := by
      have hle : texts.length ≤ _ := length_le_flatMap
      rw [List.length_append, List.length_cons]
      omega
    have hmore : moreItems item closing _ (_ ++ closing :: rest) = _ :=
      moreItems_texts hclosing hs hlength
    have hitem := h.2 (texts.flatMap (',' :: ·) ++ closing :: rest) (closes_flatMap hclosing)
    rw [intercalate_cons, List.append_assoc]
    unfold items
    rw [h.1.skipBlank]
    obtain ⟨c, cs, rfl, hc, hbracket, hbrace⟩ := h.1
    have hne : c ≠ closing := by rcases hclosing with rfl | rfl <;> assumption
    simp only [List.cons_append, if_neg hne] at hitem ⊢
    rw [hitem]
    cases a with
    | none => rfl
    | some a =>
      simp only [Option.map_some, Option.bind_eq_bind, Option.bind_some, hmore, List.mapM_cons, id]
      cases as.mapM id <;> rfl

end Items

theorem scans_fieldOf {scan : Scan Json} (name : String) {text : List Char}
    {o : Option Json} (ht : Opens text) (h : Scans scan text o) :
    Scans (fieldOf scan) ((quotedText name).toList ++ ':' :: text) (o.map (name, ·)) := by
  intro rest hrest
  have hcolon : ∀ cs, skipBlank (':' :: cs) = ':' :: cs := fun _ => rfl
  rw [List.append_assoc]
  unfold fieldOf
  simp only [string_quotedText, List.cons_append, hcolon, ht.skipBlank, h rest hrest,
    Option.bind_eq_bind, Option.bind_some]
  cases o <;> rfl

theorem compactItems_eq (items : List Json) : compactItems items = items.map compact := by
  induction items with
  | nil => rfl
  | cons j js ih => rw [compactItems, ih, List.map_cons]

theorem compactFields_eq (fields : List (String × Json)) :
    compactFields fields = fields.map fun f => quotedText f.1 ++ ":" ++ f.2.compact := by
  induction fields with
  | nil => rfl
  | cons f fs ih => rw [compactFields, ih, List.map_cons]

theorem toList_arr (items : List Json) : (Json.arr items).compact.toList = '[' ::
    ([','].intercalate (items.map (·.compact.toList)) ++ [']']) := by
  simp [compact, compactItems_eq, String.toList_intercalate, Function.comp_def]

theorem toList_obj (fields : List (String × Json)) : (Json.obj fields).compact.toList = '\x7b' ::
    ([','].intercalate (fields.map fun f => (quotedText f.1).toList ++ ':' :: f.2.compact.toList) ++
    ['\x7d']) := by
  simp [compact, compactFields_eq, String.toList_intercalate, Function.comp_def]

theorem opens_toString (v : Int) : Opens (toString v).toList := by
  have hdigit : ∀ d, Decimal.isDigit d = true → isBlank d = false ∧ d ≠ ']' ∧ d ≠ '\x7d' := by
    intro d hd
    refine ⟨?_, ?_, ?_⟩
    · by_contra hblank
      simp only [isBlank, Bool.not_eq_false, Bool.or_eq_true, decide_eq_true_eq] at hblank
      obtain ((rfl | rfl) | rfl) | rfl := hblank <;> revert hd <;> decide
    all_goals
      rintro rfl
      revert hd
      decide
  cases v with
  | ofNat n =>
    obtain ⟨d, ds, hd, hisDigit⟩ := exists_toDigits n
    exact ⟨d, ds, (toList_ofNat n).trans hd, hdigit d hisDigit⟩
  | negSucc n => exact ⟨'-', _, toList_negSucc n, rfl, by decide, by decide⟩

theorem opens_compact {j : Json} (h : Exact j) : Opens j.compact.toList := by
  cases h with
  | null => exact ⟨_, _, rfl, rfl, by decide, by decide⟩
  | @bool b => cases b <;> exact ⟨_, _, rfl, rfl, by decide, by decide⟩
  | int => exact opens_toString _
  | str => exact ⟨_, _, toList_quotedText _, rfl, by decide, by decide⟩
  | arr => exact ⟨_, _, toList_arr _, rfl, by decide, by decide⟩
  | obj => exact ⟨_, _, toList_obj _, rfl, by decide, by decide⟩

theorem mapM_guard {β : Type} {p : β → Prop} [DecidablePred p] (bs : List β) :
    (bs.map fun b => if p b then some b else none).mapM id = if ∀ b ∈ bs,
    p b then some bs else none := by
  induction bs with
  | nil => rfl
  | cons b bs ih =>
    simp only [List.map_cons, List.mapM_cons, ih, List.forall_mem_cons, id]
    by_cases hb : p b
    · by_cases hbs : ∀ b ∈ bs, p b
      · rw [if_pos hb, if_pos hbs, if_pos ⟨hb, hbs⟩]
        rfl
      · rw [if_pos hb, if_neg hbs, if_neg fun h => hbs h.2]
        rfl
    · have hall : ¬ (p b ∧ ∀ b ∈ bs, p b) := fun h => hb h.1
      rw [if_neg hb, if_neg hall]
      rfl

theorem value_scalar {d : Nat} (hbracket : c ≠ '[') (hbrace : c ≠ '\x7b') :
    value d (c :: cs) = scalar (c :: cs) := by
  cases d with
  | zero => rfl
  | succ d => simp [value, hbracket, hbrace]

theorem scans_int {v : Int} (hlow : -9223372036854775808 ≤ v) (hhigh : v < 18446744073709551616)
    (d : Nat) : Scans (value d) (toString v).toList (some (.int v)) := by
  intro rest hrest
  have hnumber := number_int hlow hhigh hrest
  obtain ⟨c, cs, hcs, hc⟩ :
      ∃ c cs, (toString v).toList = c :: cs ∧ (Decimal.isDigit c = true ∨ c = '-') := by
    cases v with
    | ofNat n =>
      obtain ⟨d, ds, hd, hdigit⟩ := exists_toDigits n
      exact ⟨d, ds, (toList_ofNat n).trans hd, .inl hdigit⟩
    | negSucc n => exact ⟨'-', _, toList_negSucc n, .inr rfl⟩
  have hne : ∀ c', Decimal.isDigit c' = false → c' ≠ '-' → c ≠ c' := by
    rintro c' hdigit hminus rfl
    rcases hc with hc | hc
    · simp [hdigit] at hc
    · exact hminus hc
  rw [hcs, List.cons_append] at hnumber ⊢
  rw [value_scalar (hne _ rfl (by decide)) (hne _ rfl (by decide))]
  have hn := hne 'n' rfl (by decide)
  have ht := hne 't' rfl (by decide)
  have hf := hne 'f' rfl (by decide)
  have hq := hne '"' rfl (by decide)
  unfold scalar
  split <;> simp_all

/-- The compact text is read back by a reader that admits its nesting, and refused by others. -/
theorem scans_compact {j : Json} (h : Exact j) (d : Nat) :
    Scans (value d) j.compact.toList (if j.nesting ≤ d then some j else none) := by
  induction h generalizing d with
  | null =>
    intro rest _
    exact value_scalar (by decide) (by decide)
  | @bool b =>
    intro rest _
    cases b <;> exact value_scalar (by decide) (by decide)
  | int hlow hhigh => exact scans_int hlow hhigh d
  | @str s =>
    intro rest _
    change value d ((quotedText s).toList ++ rest) = some (.str s, rest)
    have hstring : string ((quotedText s).toList ++ rest) = some (s, rest) := string_quotedText s
    rw [toList_quotedText, List.cons_append] at hstring ⊢
    rw [value_scalar (by decide) (by decide), scalar, hstring]
    rfl
  | @arr items hitems ih =>
    intro rest _
    rw [toList_arr, List.cons_append, List.append_assoc, List.singleton_append]
    cases d with
    | zero => rfl
    | succ d =>
      have hscan : List.Forall₂ (fun text a => Opens text ∧ Scans (value d) text a) (items.map
          (·.compact.toList)) (items.map fun j => if j.nesting ≤ d then some j else none) := by
        rw [List.forall₂_map_left_iff, List.forall₂_map_right_iff, List.forall₂_same]
        exact fun j hj => ⟨opens_compact (hitems j hj), ih j hj d⟩
      simp only [value, items_texts (.inl rfl) hscan, mapM_guard, nesting, Nat.add_le_add_iff_right,
        nestingItems_le]
      split <;> rfl
  | @obj fields hfields ih =>
    intro rest _
    rw [toList_obj, List.cons_append, List.append_assoc, List.singleton_append]
    cases d with
    | zero => rfl
    | succ d =>
      have hscan : List.Forall₂ (fun text a => Opens text ∧ Scans (fieldOf (value d)) text a)
          (fields.map fun f => (quotedText f.1).toList ++ ':' :: f.2.compact.toList)
          (fields.map fun f => if f.2.nesting ≤ d then some f else none) := by
        rw [List.forall₂_map_left_iff, List.forall₂_map_right_iff, List.forall₂_same]
        intro f hf
        refine ⟨⟨_, _, by rw [toList_quotedText, List.cons_append], rfl, by decide, by decide⟩, ?_⟩
        have hfield := scans_fieldOf f.1 (opens_compact (hfields f hf)) (ih f hf d)
        by_cases hle : f.2.nesting ≤ d
        · rwa [if_pos hle] at hfield ⊢
        · rwa [if_neg hle] at hfield ⊢
      simp only [value, items_texts (.inr rfl) hscan, mapM_guard, nesting, Nat.add_le_add_iff_right,
        nestingFields_le]
      split <;> rfl

theorem read?_compact {j : Json} (h : Exact j) (d : Nat) :
    read? d j.compact = if j.nesting ≤ d then some j else none := by
  have hscan := scans_compact h d [] (by simp [Closes])
  have hblank : skipBlank (j.compact.toList ++ []) = j.compact.toList ++ [] :=
    (opens_compact h).skipBlank
  rw [List.append_nil] at hscan hblank
  unfold read?
  rw [hblank, hscan]
  by_cases hle : j.nesting ≤ d
  · rw [if_pos hle]
    rfl
  · rw [if_neg hle]
    rfl

end TwoTier.Json
