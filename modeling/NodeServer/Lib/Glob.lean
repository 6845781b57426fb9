import NodeServer.Lib.Table

/-! # Glob matching of the key-value server (`redis-5.0.2/src/util.c:48-168`)

`stringmatchlen` with `nocase = 0`. The C loop walks the pattern and the text
by pointers; here the rest of each is a list. Texts are matched byte by byte,
and a range compares bytes as signed `char` values. -/

namespace NodeServer.Glob

/-- A byte as the `int` a signed `char` is converted to. -/
def charValue (c : Char) : ℤ := if c.toNat < 128 then c.toNat else (c.toNat : ℤ) - 256

/-- `[a-b]` (util.c:99-116): the ends may come in either order. -/
def inRange (a b c : Char) : Bool :=
  min (charValue a) (charValue b) ≤ charValue c ∧ charValue c ≤ max (charValue a) (charValue b)

/-- The loop over a class (util.c:87-128): whether `c` matched, and the pattern
after the closing bracket. A class the pattern leaves open ends with it. -/
def classLoop (c : Char) : List Char → Bool → Bool × List Char
  | [], found => (found, [])
  | '\\' :: x :: ps, found => classLoop c ps (found || x == c)
  | ']' :: ps, found => (found, ps)
  | a :: '-' :: b :: ps, found => classLoop c ps (found || inRange a b c)
  | x :: ps, found => classLoop c ps (found || x == c)

/-- One class, with its leading `^` (util.c:79-85, 129-130). -/
def classMatch (c : Char) : List Char → Bool × List Char
  | '^' :: ps => ((!(classLoop c ps false).1), (classLoop c ps false).2)
  | ps => classLoop c ps false

/-- The non-empty suffixes of a text, longest first. -/
def suffixes : Str → List Str
  | [] => []
  | c :: s => (c :: s) :: suffixes s

/-- The pattern loop; `fuel` bounds the number of pattern bytes left. When the
text ends only `*` may be left over (util.c:157-163), which is what the cases
on an empty text say. -/
def matchLoop : ℕ → Str → Str → Bool
  | 0, _, _ => false
  | _ + 1, [], s => s.isEmpty
  | fuel + 1, '*' :: '*' :: ps, s => matchLoop fuel ('*' :: ps) s
  | _ + 1, ['*'], _ => true
  | fuel + 1, '*' :: ps, s => (suffixes s).any fun t => matchLoop fuel ps t
  | fuel + 1, '?' :: ps, _ :: s => matchLoop fuel ps s
  | fuel + 1, '[' :: ps, c :: s => (classMatch c ps).1 && matchLoop fuel (classMatch c ps).2 s
  | fuel + 1, '\\' :: x :: ps, c :: s => x == c && matchLoop fuel ps s
  | fuel + 1, x :: ps, c :: s => x == c && matchLoop fuel ps s
  | _ + 1, _ :: _, [] => false

/-- Whether the whole text matches the pattern. -/
def stringmatch (pattern s : Str) : Bool := matchLoop (pattern.length + 1) pattern s

/-- Bytes that stand for themselves in a pattern. -/
def plainChar (c : Char) : Bool := c ≠ '*' ∧ c ≠ '?' ∧ c ≠ '[' ∧ c ≠ '\\'

def plain (l : Str) : Prop := ∀ c ∈ l, plainChar c = true

instance (l : Str) : Decidable (plain l) := List.decidableBAll (fun c => plainChar c = true) l

theorem stringmatch_nil (s : Str) : stringmatch [] s = s.isEmpty := rfl

theorem stringmatch_star (s : Str) : stringmatch ['*'] s = true := rfl

theorem stringmatch_plain_nil (x : Char) (ps : Str) (hx : plainChar x = true) :
    stringmatch (x :: ps) [] = false := by
  simp only [plainChar, decide_eq_true_eq] at hx
  simp [stringmatch, matchLoop, hx.1]

theorem stringmatch_plain_cons (x c : Char) (ps s : Str) (hx : plainChar x = true) :
    stringmatch (x :: ps) (c :: s) = (x == c && stringmatch ps s) := by
  simp only [plainChar, decide_eq_true_eq] at hx
  obtain ⟨h1, _, _, h4⟩ := hx
  simp [stringmatch, matchLoop, h1, h4]

/-- A plain stem must be read literally, whatever follows it in the pattern. -/
theorem stringmatch_stem (l p s : Str) (hl : plain l) :
    stringmatch (l ++ p) s = true ↔ ∃ t, s = l ++ t ∧ stringmatch p t = true := by
  induction l generalizing s with
  | nil => simp
  | cons x l ih =>
    have hx := hl x (List.mem_cons_self ..)
    have hrest : plain l := fun c hc => hl c (List.mem_cons_of_mem _ hc)
    rw [List.cons_append]
    cases s with
    | nil => simp [stringmatch_plain_nil x (l ++ p) hx]
    | cons c s =>
      rw [stringmatch_plain_cons x c (l ++ p) s hx, Bool.and_eq_true, beq_iff_eq, ih s hrest]
      constructor
      · rintro ⟨rfl, t, rfl, ht⟩
        exact ⟨t, rfl, ht⟩
      · rintro ⟨t, hs, ht⟩
        obtain ⟨rfl, rfl⟩ := List.cons.inj hs
        exact ⟨rfl, t, rfl, ht⟩

theorem stringmatch_plain (l s : Str) (hl : plain l) : stringmatch l s = true ↔ s = l := by
  have h := stringmatch_stem l [] s hl
  simp only [List.append_nil, stringmatch_nil, List.isEmpty_iff] at h
  rw [h]
  constructor
  · rintro ⟨t, rfl, rfl⟩
    simp
  · rintro rfl
    exact ⟨[], by simp, rfl⟩

theorem stringmatch_stem_star (l s : Str) (hl : plain l) :
    stringmatch (l ++ ['*']) s = true ↔ l <+: s := by
  rw [stringmatch_stem l ['*'] s hl]
  constructor
  · rintro ⟨t, rfl, _⟩
    exact List.prefix_append l t
  · rintro ⟨t, rfl⟩
    exact ⟨t, rfl, stringmatch_star t⟩

end NodeServer.Glob
