import Mathlib

/-!
# C strings in byte memories

A memory is the list of bytes from a pointer on. `cstr` cuts it at the first
NUL (or where the list ends), `find` is the first occurrence of a token, and
`strstr`, `strnstr`, `atoi` are the C library's searches and number parser on
such memories. `find` is stable under longer memories (`find_append`). A search or a
number that ends inside a memory does not see what follows (`strstr_settled`,
`atoi_append`); one that does not end there is decided by it (`strstr_nul`,
`strstr_tok`).
-/

namespace CStr

def bytes (s : String) : List UInt8 := s.toList.map fun c => UInt8.ofNat c.toNat

section Find

variable {α : Type*} [DecidableEq α]

/-- The offset of the first occurrence of `tok`. -/
def find (tok : List α) : List α → Option Nat
  | [] => if tok = [] then some 0 else none
  | x :: xs => if tok.isPrefixOf (x :: xs) then some 0 else (find tok xs).map (· + 1)

variable {tok hay more : List α} {o : Nat}

theorem find_cons_of_not {x : α} {xs : List α} (h : ¬ tok <+: x :: xs) :
    find tok (x :: xs) = (find tok xs).map (· + 1) := by
  rw [find, if_neg (by rwa [List.isPrefixOf_iff_prefix])]

theorem find_of_isPrefix (h : tok <+: hay) : find tok hay = some 0 := by
  cases hay with
  | nil => simp [find, List.prefix_nil.mp h]
  | cons x xs => rw [find, if_pos (List.isPrefixOf_iff_prefix.mpr h)]

/-- `find` answers with the first offset at which the token stands. -/
theorem find_eq_some_iff :
    find tok hay = some o ↔ tok <+: hay.drop o ∧ o ≤ hay.length ∧
      ∀ j < o, ¬ tok <+: hay.drop j := by
  induction hay generalizing o with
  | nil =>
    by_cases ht : tok = []
    · subst ht
      simp only [find, ↓reduceIte, Option.some.injEq, List.drop_nil, List.nil_prefix,
        not_true_eq_false, imp_false, not_lt, true_and, List.length_nil]
      constructor
      · rintro rfl
        exact ⟨le_rfl, fun j => Nat.zero_le j⟩
      · intro h
        omega
    · simp [find, ht]
  | cons x xs ih =>
    by_cases h0 : tok <+: x :: xs
    · rw [find_of_isPrefix h0]
      constructor
      · rintro ⟨⟩
        exact ⟨h0, Nat.zero_le _, fun j hj => absurd hj (Nat.not_lt_zero j)⟩
      · rintro ⟨-, -, hlt⟩
        cases o with
        | zero => rfl
        | succ o => exact absurd h0 (hlt 0 (Nat.succ_pos o))
    · rw [find_cons_of_not h0]
      cases o with
      | zero => simp [h0]
      | succ o =>
        simp only [Option.map_eq_some_iff, Nat.add_right_cancel_iff, exists_eq_right, ih,
          List.drop_succ_cons, List.length_cons, Nat.add_le_add_iff_right]
        refine and_congr_right fun _ => and_congr_right fun _ =>
          ⟨fun h j hj => ?_, fun h j hj => ?_⟩
        · cases j with
          | zero => exact h0
          | succ j => exact h j (by omega)
        · exact h (j + 1) (by omega)

theorem find_length (h : find tok hay = some o) : o + tok.length ≤ hay.length := by
  obtain ⟨hp, ho, -⟩ := find_eq_some_iff.mp h
  have := hp.length_le
  rw [List.length_drop] at this
  omega

theorem find_split (h : find tok hay = some o) :
    hay = hay.take o ++ tok ++ hay.drop (o + tok.length) := by
  obtain ⟨⟨rest, hr⟩, -, -⟩ := find_eq_some_iff.mp h
  rw [← List.drop_drop, ← hr, List.drop_left, List.append_assoc, hr, List.take_append_drop]

omit [DecidableEq α] in
theorem drop_isPrefix_append {j : Nat} (hj : j + tok.length ≤ hay.length) :
    tok <+: (hay ++ more).drop j ↔ tok <+: hay.drop j := by
  rw [List.drop_append_of_le_length (by omega)]
  constructor
  · intro h
    exact List.prefix_of_prefix_length_le h (List.prefix_append _ _)
      (by rw [List.length_drop]; omega)
  · exact fun h => h.trans (List.prefix_append _ _)

theorem find_append (h : find tok hay = some o) : find tok (hay ++ more) = some o := by
  have hl := find_length h
  obtain ⟨hp, ho, hlt⟩ := find_eq_some_iff.mp h
  refine find_eq_some_iff.mpr ⟨(drop_isPrefix_append hl).mpr hp, by simp; omega, fun j hj => ?_⟩
  exact fun hc => hlt j hj ((drop_isPrefix_append (by omega)).mp hc)

theorem find_of_isPrefix_drop {k : Nat} (hk : k ≤ hay.length) (h : tok <+: hay.drop k) :
    ∃ o, find tok hay = some o ∧ o ≤ k := by
  have hex : ∃ j, tok <+: hay.drop j := ⟨k, h⟩
  have hle : Nat.find hex ≤ k := Nat.find_min' hex h
  refine ⟨Nat.find hex, ?_, hle⟩
  exact find_eq_some_iff.mpr
    ⟨Nat.find_spec hex, hle.trans hk, fun j hj => Nat.find_min hex hj⟩

/-- A token put behind a memory that does not hold it is found there, or partly before. -/
theorem find_append_tok (h : find tok hay = none) (more : List α) :
    ∃ o, find tok (hay ++ (tok ++ more)) = some o ∧ o ≤ hay.length ∧
      hay.length < o + tok.length := by
  have hhere : tok <+: (hay ++ (tok ++ more)).drop hay.length := by
    rw [List.drop_left]
    exact List.prefix_append tok more
  obtain ⟨o, ho, hle⟩ := find_of_isPrefix_drop (by simp) hhere
  refine ⟨o, ho, hle, ?_⟩
  by_contra hin
  obtain ⟨hp, -, hfirst⟩ := find_eq_some_iff.mp ho
  have hfound : find tok hay = some o := by
    refine find_eq_some_iff.mpr ⟨(drop_isPrefix_append (by omega)).mp hp, hle, fun j hj => ?_⟩
    exact fun hc => hfirst j hj ((drop_isPrefix_append (by omega)).mpr hc)
  rw [h] at hfound
  cases hfound

/-- No proper end of the token is a beginning of it. -/
def Unbordered (tok : List α) : Prop := ∀ j < tok.length, 0 < j → ¬ tok.drop j <+: tok

instance (tok : List α) : Decidable (Unbordered tok) :=
  inferInstanceAs (Decidable (∀ j < tok.length, _))

theorem find_append_unbordered (hu : Unbordered tok) (h : find tok hay = none) (more : List α) :
    find tok (hay ++ (tok ++ more)) = some hay.length := by
  obtain ⟨o, ho, hle, hlt⟩ := find_append_tok h more
  rcases Nat.eq_or_lt_of_le hle with rfl | ho'
  · exact ho
  · exfalso
    obtain ⟨hp, -, -⟩ := find_eq_some_iff.mp ho
    rw [List.drop_append_of_le_length hle] at hp
    have hborder : tok.drop (hay.length - o) <+: tok ++ more := by
      have := hp.drop (hay.length - o)
      rwa [List.drop_append_of_le_length (by rw [List.length_drop]), List.drop_drop,
        Nat.add_sub_cancel' hle, List.drop_length, List.nil_append] at this
    refine hu (hay.length - o) (by omega) (by omega) ?_
    exact List.prefix_of_prefix_length_le hborder (List.prefix_append _ _)
      (by rw [List.length_drop]; omega)

theorem infix_of_find (h : find tok hay = some o) : tok <:+: hay :=
  ⟨hay.take o, hay.drop (o + tok.length), (find_split h).symm⟩

end Find

/-! ## Strings -/

/-- The C string a memory starts with: its bytes before the first NUL. -/
def cstr (m : List UInt8) : List UInt8 := m.takeWhile (· ≠ 0)

theorem cstr_isPrefix (m : List UInt8) : cstr m <+: m := List.takeWhile_prefix _

theorem cstr_append {a : List UInt8} (h : 0 ∉ a) (b : List UInt8) :
    cstr (a ++ b) = a ++ cstr b := by
  refine List.takeWhile_append_of_pos fun x hx => ?_
  simpa using fun h0 : x = 0 => h (h0 ▸ hx)

theorem cstr_of_noNul {a : List UInt8} (h : 0 ∉ a) : cstr a = a := by
  simpa [cstr] using cstr_append h []

theorem cstr_append_of_mem {a : List UInt8} (h : 0 ∈ a) (b : List UInt8) :
    cstr (a ++ b) = cstr a := by
  unfold cstr
  rw [List.takeWhile_append, if_neg]
  intro hlen
  have hall := List.takeWhile_eq_self_iff.mp ((List.takeWhile_prefix _).eq_of_length hlen)
  simpa using hall 0 h

theorem cstr_isPrefix_append (a b : List UInt8) : cstr a <+: cstr (a ++ b) := by
  induction a with
  | nil => exact List.nil_prefix
  | cons x xs ih =>
    by_cases hx : x = 0
    · simp [cstr, hx]
    · simpa [cstr, hx] using ih

/-- `strstr`: where `tok` first stands in the string. -/
def strstr (m tok : List UInt8) : Option Nat := find tok (cstr m)

def strnstr (m tok : List UInt8) (n : Nat) : Option Nat := strstr (m.take n) tok

/-- `strncmp(m, tok, strlen(tok)) == 0` (also `memcmp`): the memory starts with the NUL-free
`tok`. -/
def startsWith (m tok : List UInt8) : Bool := tok.isPrefixOf m

variable {m more tok : List UInt8} {o : Nat}

theorem strstr_append (h : strstr m tok = some o) : strstr (m ++ more) tok = some o := by
  obtain ⟨r, hr⟩ := cstr_isPrefix_append m more
  unfold strstr
  rw [← hr]
  exact find_append h

theorem strstr_length (h : strstr m tok = some o) : o + tok.length ≤ m.length :=
  (find_length h).trans (cstr_isPrefix m).length_le

theorem infix_of_strstr (h : strstr m tok = some o) : tok <:+: m :=
  (infix_of_find h).trans (cstr_isPrefix m).isInfix

/-! ## Searches that end inside a memory -/

/-- The search for `tok` meets a NUL or the token. -/
def Settled (tok s : List UInt8) : Prop := 0 ∈ s ∨ (strstr s tok).isSome

instance (tok s : List UInt8) : Decidable (Settled tok s) := inferInstanceAs (Decidable (_ ∨ _))

/-- **A settled search does not look behind the memory.** -/
theorem strstr_settled (h : Settled tok m) (more : List UInt8) :
    strstr (m ++ more) tok = strstr m tok := by
  rcases h with h | h
  · rw [strstr, cstr_append_of_mem h, strstr]
  · obtain ⟨o, ho⟩ := Option.isSome_iff_exists.mp h
    rw [ho, strstr_append ho]

section Open

variable (h : ¬ Settled tok m)
include h

theorem find_of_not_settled : 0 ∉ m ∧ find tok m = none := by
  rw [Settled, not_or, strstr, Option.not_isSome_iff_eq_none] at h
  rw [cstr_of_noNul h.1] at h
  exact h

theorem strstr_nul : strstr (m ++ [0]) tok = none := by
  obtain ⟨hm, hnone⟩ := find_of_not_settled h
  rw [strstr, cstr_append hm, show cstr [0] = [] from rfl, List.append_nil, hnone]

variable (h0 : 0 ∉ tok) (more : List UInt8)
include h0

theorem strstr_tok :
    ∃ o, strstr (m ++ (tok ++ more)) tok = some o ∧ m.length < o + tok.length := by
  obtain ⟨hm, hnone⟩ := find_of_not_settled h
  obtain ⟨o, ho, -, hlt⟩ := find_append_tok hnone (cstr more)
  refine ⟨o, ?_, hlt⟩
  rw [strstr, cstr_append hm, cstr_append h0, ho]

theorem strstr_tok_unbordered (hu : Unbordered tok) :
    strstr (m ++ (tok ++ more)) tok = some m.length := by
  obtain ⟨hm, hnone⟩ := find_of_not_settled h
  rw [strstr, cstr_append hm, cstr_append h0]
  exact find_append_unbordered hu hnone (cstr more)

end Open

/-! ## Numbers -/

def isSpace (b : UInt8) : Bool := b = 32 || (9 ≤ b && b ≤ 13)

def isDigit (b : UInt8) : Bool := 48 ≤ b && b ≤ 57

def digits (m : List UInt8) : Nat :=
  (m.takeWhile isDigit).foldl (fun v b => 10 * v + (b.toNat - 48)) 0

/-- `INT_MIN ≤ v ≤ INT_MAX`, saturating as `strtol` does. -/
def clampInt (v : Int) : Int := max (-2 ^ 31) (min v (2 ^ 31 - 1))

/-- `atoi`: white space, an optional sign, decimal digits. -/
def atoi (m : List UInt8) : Int :=
  match m.dropWhile isSpace with
  | 45 :: ds => clampInt (-(digits ds : Int))
  | 43 :: ds => clampInt (digits ds)
  | ds => clampInt (digits ds)

example : atoi (bytes " 458780\r\n") = 458780 := by decide

/-! ## Numbers that end inside a memory -/

theorem digits_append_of_digits {ds : List UInt8} (h : ∀ b ∈ ds, isDigit b) (m : List UInt8) :
    digits (ds ++ m) =
      (m.takeWhile isDigit).foldl (fun v b => 10 * v + (b.toNat - 48)) (digits ds) := by
  have hds : ds.takeWhile isDigit = ds := List.takeWhile_eq_self_iff.mpr h
  rw [digits, digits, List.takeWhile_append_of_pos h, List.foldl_append, hds]

theorem digits_append_of_not {ds : List UInt8} (h : ¬ ∀ b ∈ ds, isDigit b) (m : List UInt8) :
    digits (ds ++ m) = digits ds := by
  rw [digits, List.takeWhile_append, if_neg, digits]
  exact fun hlen => h (List.takeWhile_eq_self_iff.mp ((List.takeWhile_prefix _).eq_of_length hlen))

theorem foldl_digits_le (v : Nat) (ds : List UInt8) :
    v ≤ ds.foldl (fun v b => 10 * v + (b.toNat - 48)) v := by
  induction ds generalizing v with
  | nil => exact le_rfl
  | cons d ds ih =>
    have := ih (10 * v + (d.toNat - 48))
    rw [List.foldl_cons]
    omega

theorem digits_le_append (ds m : List UInt8) : digits ds ≤ digits (ds ++ m) := by
  by_cases h : ∀ b ∈ ds, isDigit b
  · rw [digits_append_of_digits h]
    exact foldl_digits_le _ _
  · rw [digits_append_of_not h]

theorem digits_append_five (ds : List UInt8) :
    digits (ds ++ [53]) = 10 * digits ds + 5 ∨ ∀ m, digits (ds ++ m) = digits ds := by
  by_cases h : ∀ b ∈ ds, isDigit b
  · left
    rw [digits_append_of_digits h]
    rfl
  · exact .inr fun m => digits_append_of_not h m

/-- The number a memory starts with is the same if a digit follows. -/
def NumberEnds (m : List UInt8) : Prop := atoi (m ++ [53]) = atoi m

instance (m : List UInt8) : Decidable (NumberEnds m) := inferInstanceAs (Decidable (_ = _))

def signed : List UInt8 → Int
  | 45 :: ds => clampInt (-(digits ds : Int))
  | 43 :: ds => clampInt (digits ds)
  | ds => clampInt (digits ds)

theorem atoi_eq (m : List UInt8) : atoi m = signed (m.dropWhile isSpace) := by
  unfold atoi signed
  rfl

/-- What a further digit does not change, a larger number does not change. -/
def Saturating (f : Nat → Int) : Prop := ∀ v w, f (10 * v + 5) = f v → v ≤ w → f w = f v

theorem saturating_clampInt : Saturating fun v => clampInt v := by
  intro v w h hle
  dsimp only [clampInt] at h ⊢
  omega

theorem saturating_clampInt_neg : Saturating fun v => clampInt (-(v : Int)) := by
  intro v w h hle
  dsimp only [clampInt] at h ⊢
  omega

theorem signed_append (c : UInt8) (ds : List UInt8) :
    ∃ (f : Nat → Int) (ds' : List UInt8), Saturating f ∧
      ∀ m, signed (c :: (ds ++ m)) = f (digits (ds' ++ m)) := by
  by_cases h45 : c = 45
  · subst h45
    exact ⟨_, ds, saturating_clampInt_neg, fun m => rfl⟩
  · by_cases h43 : c = 43
    · subst h43
      exact ⟨_, ds, saturating_clampInt, fun m => rfl⟩
    · refine ⟨_, c :: ds, saturating_clampInt, fun m => ?_⟩
      unfold signed
      split
      · next heq => exact absurd (List.cons.inj heq).1 h45
      · next heq => exact absurd (List.cons.inj heq).1 h43
      · rfl

/-- `atoi` of a longer memory: only white space so far, or a saturating function of the digits. -/
theorem atoi_append_cases (m : List UInt8) :
    (atoi m = 0 ∧ ∀ more, atoi (m ++ more) = atoi more) ∨
      ∃ (f : Nat → Int) (ds : List UInt8), Saturating f ∧ atoi m = f (digits ds) ∧
        ∀ more, atoi (m ++ more) = f (digits (ds ++ more)) := by
  cases hm : m.dropWhile isSpace with
  | nil =>
    refine .inl ⟨by rw [atoi_eq, hm]; rfl, fun more => ?_⟩
    rw [atoi_eq, List.dropWhile_append, hm, atoi_eq]
    rfl
  | cons c cs =>
    obtain ⟨f, ds, hf, hs⟩ := signed_append c cs
    refine .inr ⟨f, ds, hf, ?_, fun more => ?_⟩
    · have hnil := hs []
      rwa [List.append_nil, List.append_nil, ← hm, ← atoi_eq] at hnil
    · rw [atoi_eq, List.dropWhile_append, hm]
      exact hs more

/-- **A number that ends inside the memory does not see what follows.** -/
theorem atoi_append (h : NumberEnds m) (more : List UInt8) : atoi (m ++ more) = atoi m := by
  unfold NumberEnds at h
  rcases atoi_append_cases m with ⟨h0, hm⟩ | ⟨f, ds, hf, h0, hm⟩
  · rw [hm, h0] at h
    exact absurd h (by decide)
  · rw [hm, h0] at h ⊢
    rcases digits_append_five ds with hd | hd
    · rw [hd] at h
      exact hf _ _ h (digits_le_append ds more)
    · rw [hd]

theorem digits_append_nul (ds : List UInt8) : digits (ds ++ [0]) = digits ds := by
  by_cases h : ∀ b ∈ ds, isDigit b
  · rw [digits_append_of_digits h]
    rfl
  · exact digits_append_of_not h _

theorem atoi_append_nul (m : List UInt8) : atoi (m ++ [0]) = atoi m := by
  rcases atoi_append_cases m with ⟨h0, hm⟩ | ⟨f, ds, -, h0, hm⟩
  · rw [hm, h0]
    decide
  · rw [hm, h0, digits_append_nul]

end CStr
