import Mathlib.Data.List.Basic
import Primer.Text.Quoted

/-!
# What is shown tells the text

A text between quotes can be told from what is shown, whatever characters are
escaped beside those that have to be. `Escapes` lists the ways in which a
character may be shown. No way is the beginning of another
(`Escapes.append_inj`), so the characters can be told one by one
(`quoteIn_injective`), and none of them breaks the line.

Lines that are joined can be told in the same way, as long as none of them has
a line feed itself (`joinLines_inj`).
-/

namespace Primer.Text

/-! ## Telling lists apart -/

/-- **The first separator is where a text is cut.** -/
theorem append_cons_inj_of_first {α : Type} {sep : α} {xs ys us vs : List α}
    (hxs : sep ∉ xs) (hys : sep ∉ ys)
    (h : xs ++ sep :: us = ys ++ sep :: vs) : xs = ys ∧ us = vs := by
  induction xs generalizing ys with
  | nil =>
    cases ys with
    | nil => exact ⟨rfl, (List.cons.inj h).2⟩
    | cons y ys =>
      exact absurd ((List.cons.inj h).1 ▸ List.mem_cons_self ..) hys
  | cons x xs ih =>
    cases ys with
    | nil => exact absurd ((List.cons.inj h).1 ▸ List.mem_cons_self ..) hxs
    | cons y ys =>
      obtain ⟨hx, hrest⟩ := List.cons.inj h
      obtain ⟨hxs, hus⟩ := ih (fun h => hxs (List.mem_cons_of_mem _ h))
        (fun h => hys (List.mem_cons_of_mem _ h)) hrest
      exact ⟨by rw [hx, hxs], hus⟩

/-- Lists are told by what is made of their elements if the elements are. -/
theorem map_inj_of_mem {α β : Type} {f : α → β} {xs ys : List α}
    (hf : ∀ x ∈ xs, ∀ y ∈ ys, f x = f y → x = y) (h : xs.map f = ys.map f) :
    xs = ys := by
  induction xs generalizing ys with
  | nil => exact (List.map_eq_nil_iff.mp h.symm).symm
  | cons x xs ih =>
    cases ys with
    | nil => cases h
    | cons y ys =>
      obtain ⟨hfirst, hrest⟩ := List.cons.inj h
      have hxy := hf x (List.mem_cons_self ..) y (List.mem_cons_self ..) hfirst
      have hxys := ih (fun x hx y hy => hf x (List.mem_cons_of_mem _ hx) y
        (List.mem_cons_of_mem _ hy)) hrest
      rw [hxy, hxys]

/-! ## Hexadecimal digits -/

/-- The characters of a numeral are digits of its base. -/
theorem exists_of_mem_toDigits {b n : Nat} (hb : 1 < b) {c : Char}
    (h : c ∈ Nat.toDigits b n) : ∃ d < b, c = Nat.digitChar d := by
  induction n using Nat.strongRecOn with
  | ind n ih =>
    rw [Nat.toDigits_eq_if hb] at h
    split at h
    · next hlt => exact ⟨n, hlt, List.mem_singleton.mp h⟩
    · next hle =>
      rcases List.mem_append.mp h with h | h
      · exact ih (n / b) (Nat.div_lt_self (by omega) hb) h
      · exact ⟨n % b, Nat.mod_lt _ (by omega), List.mem_singleton.mp h⟩

theorem digitChar_inj : ∀ m < 16, ∀ n < 16,
    Nat.digitChar m = Nat.digitChar n → m = n := by decide

/-- **A hexadecimal numeral names one number.** -/
theorem toDigits_sixteen_inj {m n : Nat}
    (h : Nat.toDigits 16 m = Nat.toDigits 16 n) : m = n := by
  induction m using Nat.strongRecOn generalizing n with
  | ind m ih =>
    rw [Nat.toDigits_eq_if (n := m) (by decide),
      Nat.toDigits_eq_if (n := n) (by decide)] at h
    split at h <;> split at h
    · next hm hn => exact digitChar_inj m hm n hn (List.singleton_inj.mp h)
    · have hnil := (@List.append_inj' _ [] _ _ _ h rfl).1
      exact absurd hnil.symm Nat.toDigits_ne_nil
    · have hnil := (@List.append_inj' _ _ _ [] _ h rfl).1
      exact absurd hnil Nat.toDigits_ne_nil
    · next hm hn =>
      obtain ⟨hinit, hlast⟩ := List.append_inj' h rfl
      have hdiv := ih (m / 16) (by omega) hinit
      have hmod := digitChar_inj _ (Nat.mod_lt m (by decide)) _
        (Nat.mod_lt n (by decide)) (List.singleton_inj.mp hlast)
      omega

/-! ## Quoted texts -/

/-- The character that a letter after a backslash stands for. -/
def letterMeaning? : Char → Option Char
  | '0' => some '\x00'
  | 't' => some '\t'
  | 'n' => some '\n'
  | 'r' => some '\r'
  | '"' => some '"'
  | '\\' => some '\\'
  | _ => none

/-- **The ways in which a character may be shown** between quotes. -/
inductive Escapes (c : Char) : List Char → Prop
  /-- It stands for itself, unless it would end the text or the line or begin
  something else. -/
  | self (hquote : c ≠ '"') (hbackslash : c ≠ '\\') (hline : c ≠ '\n') :
    Escapes c [c]
  /-- It stands under its letter. -/
  | letter (l : Char) (h : letterMeaning? l = some c) : Escapes c ['\\', l]
  /-- It stands as its code point, between braces. -/
  | code : Escapes c
    ('\\' :: 'u' :: '\x7b' :: (Nat.toDigits 16 c.toNat ++ ['\x7d']))

theorem notMem_toDigits {c : Char} (h : ∀ d < 16, c ≠ Nat.digitChar d)
    (n : Nat) : c ∉ Nat.toDigits 16 n := by
  intro hc
  obtain ⟨d, hd, heq⟩ := exists_of_mem_toDigits (by decide) hc
  exact h d hd heq

namespace Escapes

variable {c d : Char} {xs ys us vs : List Char}

/-- **No way to show a character is the beginning of another.** -/
theorem append_inj (hc : Escapes c xs) (hd : Escapes d ys)
    (h : xs ++ us = ys ++ vs) : c = d ∧ us = vs := by
  cases hc with
  | self _ hbackslash =>
    cases hd with
    | self => exact List.cons.inj h
    | letter => exact absurd (List.cons.inj h).1 hbackslash
    | code => exact absurd (List.cons.inj h).1 hbackslash
  | letter l hl =>
    cases hd with
    | self _ hbackslash => exact absurd (List.cons.inj h).1.symm hbackslash
    | letter l' hl' =>
      obtain ⟨rfl, hus⟩ := List.cons.inj (List.cons.inj h).2
      exact ⟨Option.some.inj (hl.symm.trans hl'), hus⟩
    | code =>
      obtain ⟨rfl, -⟩ := List.cons.inj (List.cons.inj h).2
      cases hl
  | code =>
    cases hd with
    | self _ hbackslash => exact absurd (List.cons.inj h).1.symm hbackslash
    | letter l' hl' =>
      obtain ⟨rfl, -⟩ := List.cons.inj (List.cons.inj h).2
      cases hl'
    | code =>
      have htail : Nat.toDigits 16 c.toNat ++ ['\x7d'] ++ us
          = Nat.toDigits 16 d.toNat ++ ['\x7d'] ++ vs :=
        (List.cons.inj (List.cons.inj (List.cons.inj h).2).2).2
      rw [List.append_assoc, List.append_assoc] at htail
      have hbrace := notMem_toDigits (c := '\x7d') (by decide)
      obtain ⟨hdigits, hus⟩ :=
        append_cons_inj_of_first (hbrace _) (hbrace _) htail
      exact ⟨Char.toNat_inj.mp (toDigits_sixteen_inj hdigits), hus⟩

/-- What is shown of a character is not the end of the text. -/
theorem append_ne_quote (h : Escapes c xs) : xs ++ us ≠ '"' :: vs := by
  intro heq
  cases h with
  | self hquote => exact hquote (List.cons.inj heq).1
  | letter => exact absurd (List.cons.inj heq).1 (by decide)
  | code => exact absurd (List.cons.inj heq).1 (by decide)

/-- What is shown of a character does not break the line. -/
theorem newline_notMem (h : Escapes c xs) : '\n' ∉ xs := by
  cases h with
  | self _ _ hline => exact fun h => hline (List.mem_singleton.mp h).symm
  | letter l hl =>
    intro h
    rcases List.mem_cons.mp h with h | h
    · exact absurd h (by decide)
    · rw [← List.mem_singleton.mp h] at hl
      cases hl
  | code =>
    have hdigits := notMem_toDigits (c := '\n') (by decide) c.toNat
    simp [hdigits]

end Escapes

/-- Every character is shown in one of these ways. -/
theorem escapes_escape (c : Char) : Escapes c (escape c) := by
  unfold escape
  split
  · exact .letter '0' rfl
  · exact .letter 't' rfl
  · exact .letter 'n' rfl
  · exact .letter 'r' rfl
  · exact .letter '"' rfl
  · exact .letter '\\' rfl
  · next hline _ hquote hbackslash =>
    split
    · exact .code
    · exact .self hquote hbackslash hline

/-- A text between double quotes, its characters shown in some way. -/
def quoteIn (shown : Char → List Char) (s : String) : String :=
  String.ofList ('"' :: (s.toList.flatMap shown ++ ['"']))

section quoteIn

variable {shown : Char → List Char} (h : ∀ c, Escapes c (shown c))

include h

/-- The characters between the quotes can be told. -/
theorem flatMap_shown_inj {cs ds : List Char}
    (heq : cs.flatMap shown ++ ['"'] = ds.flatMap shown ++ ['"']) :
    cs = ds := by
  induction cs generalizing ds with
  | nil =>
    cases ds with
    | nil => rfl
    | cons d ds =>
      rw [List.flatMap_cons, List.append_assoc] at heq
      exact absurd heq.symm (h d).append_ne_quote
  | cons c cs ih =>
    rw [List.flatMap_cons, List.append_assoc] at heq
    cases ds with
    | nil => exact absurd heq (h c).append_ne_quote
    | cons d ds =>
      rw [List.flatMap_cons, List.append_assoc] at heq
      obtain ⟨rfl, hrest⟩ := (h c).append_inj (h d) heq
      rw [ih hrest]

/-- **A quoted text tells the text.** -/
theorem quoteIn_injective : Function.Injective (quoteIn shown) := by
  intro s t heq
  have hchars := congrArg String.toList heq
  rw [quoteIn, quoteIn, String.toList_ofList, String.toList_ofList] at hchars
  exact String.toList_inj.mp (flatMap_shown_inj h (List.cons.inj hchars).2)

/-- A quoted text is on one line. -/
theorem newline_notMem_quoteIn (s : String) :
    '\n' ∉ (quoteIn shown s).toList := by
  rw [quoteIn, String.toList_ofList, List.mem_cons, List.mem_append,
    List.mem_flatMap]
  rintro (hline | ⟨c, -, hline⟩ | hline)
  · exact absurd hline (by decide)
  · exact (h c).newline_notMem hline
  · exact absurd hline (by decide)

end quoteIn

/-! ## Lines -/

/-- Lines, each ended by a line feed, as one text. -/
def joinLines (lines : List String) : String :=
  String.join (lines.map (· ++ "\n"))

/-- **The lines of a text** are those it was made of. -/
theorem splitOn_joinLines {lines : List String}
    (h : ∀ line ∈ lines, '\n' ∉ line.toList) :
    (joinLines lines).toList.splitOn '\n'
      = lines.map String.toList ++ [[]] := by
  induction lines with
  | nil => rfl
  | cons line lines ih =>
    obtain ⟨hline, hlines⟩ := List.forall_mem_cons.mp h
    have hcons : (joinLines (line :: lines)).toList
        = line.toList ++ '\n' :: (joinLines lines).toList := by
      rw [joinLines, List.map_cons, String.join_cons, String.toList_append,
        String.toList_append, List.append_assoc]
      rfl
    rw [hcons, List.splitOn_append_cons_self_of_not_mem hline, ih hlines]
    rfl

/-- **A text tells the lines it is made of.** -/
theorem joinLines_inj {lines lines' : List String}
    (h : ∀ line ∈ lines, '\n' ∉ line.toList)
    (h' : ∀ line ∈ lines', '\n' ∉ line.toList)
    (heq : joinLines lines = joinLines lines') : lines = lines' := by
  have hsplit := congrArg (fun s : String => s.toList.splitOn '\n') heq
  simp only [splitOn_joinLines h, splitOn_joinLines h'] at hsplit
  have hchars := List.append_cancel_right hsplit
  exact List.map_injective_iff.mpr (fun _ _ => String.toList_inj.mp) hchars

end Primer.Text
