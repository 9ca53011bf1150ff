import AmmCompiler.Proofs.Grammar.Gap

/-! Tokens written out with gaps between them, and which gaps keep two tokens apart. -/

namespace AmmCompiler.Source

open Text

/-- What the gap behind a token is bound to: nothing, to stay on the line, or to end it. -/
inductive Spacing
  | free
  | sameLine
  | lineEnd
  deriving DecidableEq, Repr

lemma Spacing.free_ne_lineEnd : free ≠ lineEnd := by decide

lemma Spacing.free_ne_sameLine : free ≠ sameLine := by decide

lemma Spacing.sameLine_ne_lineEnd : sameLine ≠ lineEnd := by decide

inductive Token
  | start
  | word (text : String) (spacing : Spacing)
  | symbol (c : Char)
  | label (text : String)
  | literal (text : String)
  | fragment (text : String)
  deriving DecidableEq, Repr

namespace Token

def text : Token → List Char
  | start => []
  | word w _ => w.toList
  | symbol c => [c]
  | label l => l.toList
  | literal l => l.toList
  | fragment f => f.toList

def spacing : Token → Spacing
  | word _ s => s
  | fragment _ => .lineEnd
  | _ => .free

lemma spacing_symbol (c : Char) : (symbol c).spacing = .free :=
  rfl

def endsInWord : Token → Bool
  | word _ _ => true
  | label l => l.toList.getLast? != some '>'
  | _ => false

def continuesWord (t : Token) : Bool :=
  t.text.head?.any isNamePart

def Solid (t : Token) : Prop :=
  ∃ c r, t.text = c :: r ∧ ¬ isBlank c ∧ c ≠ '/'

def StartsLine (t : Token) : Prop :=
  t = symbol '\x7d' ∨ ∃ c r, t.text = c :: r ∧ isNameStart c

end Token

structure Fits (before : Token) (gap : List Char) (after : Token) : Prop where
  isGap : Gap gap
  apart : before.endsInWord → after.continuesWord → gap ≠ []
  sameLine : before.spacing = .sameLine → '\n' ∉ gap
  lineEnd : before.spacing = .lineEnd → '\n' ∈ gap ∨ after = .symbol '\x7d'
  slash : ∀ f, before = .fragment f → f.toList.getLast? = some '/' → gap.head? ≠ some '/'

def Next (before token : Token) (cs rest : List Char) : Prop :=
  ∃ gap, cs = gap ++ (token.text ++ rest) ∧ Fits before gap token

/-- The text goes on behind `before` with these tokens and gaps in front of them, up to `rest`. -/
inductive Layout : Token → List Token → List Char → List Char → Prop
  | nil {before : Token} {cs : List Char} : Layout before [] cs cs
  | cons {before token : Token} {tokens : List Token} {cs mid rest : List Char} :
      Next before token cs mid → Layout token tokens mid rest → Layout before (token :: tokens) cs rest

/-- The whole text is these tokens and gaps between and around them. -/
def Rendering (tokens : List Token) (text : List Char) : Prop :=
  ∃ rest, Layout .start tokens text rest ∧ FinalGap rest

structure Follows (before : Token) (cs : List Char) : Prop where
  apart : before.endsInWord → ∀ c ∈ cs.head?, ¬ isNamePart c
  sameLine : before.spacing = .sameLine → (skipInlineGap cs).head? ≠ some '\n'
  lineEnd : before.spacing = .lineEnd → ∀ c ∈ (skipInlineGap cs).head?, ¬ isNameStart c
  slash : ∀ f, before = .fragment f → f.toList.getLast? = some '/' → cs.head? ≠ some '/'

variable {before token : Token} {tokens more : List Token} {cs mid rest gap : List Char}

lemma layout_cons : Layout before (token :: tokens) cs rest ↔
    ∃ mid, Next before token cs mid ∧ Layout token tokens mid rest := by
  constructor
  · intro h
    cases h with
    | cons hn hl => exact ⟨_, hn, hl⟩
  · rintro ⟨mid, hn, hl⟩
    exact .cons hn hl

lemma layout_nil : Layout before [] cs rest ↔ cs = rest := by
  constructor
  · intro h
    cases h
    rfl
  · rintro rfl
    exact .nil

lemma layout_singleton : Layout before [token] cs rest ↔ Next before token cs rest := by
  simp only [layout_cons, layout_nil, exists_eq_right]

lemma getLastD_append (xs ys : List Token) :
    (xs ++ ys).getLastD before = ys.getLastD (xs.getLastD before) := by
  induction xs generalizing before with
  | nil => rfl
  | cons x xs ih => rw [List.cons_append, List.getLastD_cons, List.getLastD_cons, ih]

lemma layout_append : Layout before (tokens ++ more) cs rest ↔
    ∃ mid, Layout before tokens cs mid ∧ Layout (tokens.getLastD before) more mid rest := by
  induction tokens generalizing before cs with
  | nil =>
    simp only [List.nil_append, layout_nil, List.getLastD_nil]
    constructor
    · intro h
      exact ⟨cs, rfl, h⟩
    · rintro ⟨mid, rfl, h⟩
      exact h
  | cons t ts ih =>
    simp only [List.cons_append, layout_cons, ih, List.getLastD_cons]
    constructor
    · rintro ⟨m, hn, mid, hl, hm⟩
      exact ⟨mid, ⟨m, hn, hl⟩, hm⟩
    · rintro ⟨mid, ⟨m, hn, hl⟩, hm⟩
      exact ⟨m, hn, mid, hl, hm⟩

lemma follows_free (hs : token.spacing = .free) (h : token.endsInWord → ∀ c ∈ cs.head?, ¬ isNamePart c) :
    Follows token cs := by
  refine ⟨h, ?_, ?_, ?_⟩
  · intro he
    rw [hs] at he
    cases he
  · intro he
    rw [hs] at he
    cases he
  · rintro f rfl
    cases hs

lemma follows_symbol (c : Char) (cs : List Char) : Follows (.symbol c) cs :=
  follows_free rfl fun h => absurd h Bool.false_ne_true

lemma follows_start (cs : List Char) : Follows .start cs :=
  follows_free rfl fun h => absurd h Bool.false_ne_true

lemma follows_literal (t : String) (cs : List Char) : Follows (.literal t) cs :=
  follows_free rfl fun h => absurd h Bool.false_ne_true

lemma follows_word {w : String} (h : ∀ c ∈ cs.head?, ¬ isNamePart c) : Follows (.word w .free) cs :=
  follows_free rfl fun _ => h

lemma follows_sameLine {w : String} (h : ∀ c ∈ cs.head?, ¬ isNamePart c)
    (hl : (skipInlineGap cs).head? ≠ some '\n') : Follows (.word w .sameLine) cs := by
  refine ⟨fun _ => h, fun _ => hl, ?_, ?_⟩
  · intro he
    cases he
  · intro f he
    cases he

lemma follows_lineEnd {w : String} (h : ∀ c ∈ cs.head?, ¬ isNamePart c)
    (hl : ∀ c ∈ (skipInlineGap cs).head?, ¬ isNameStart c) : Follows (.word w .lineEnd) cs := by
  refine ⟨fun _ => h, ?_, fun _ => hl, ?_⟩
  · intro he
    cases he
  · intro f he
    cases he

lemma Fits.follows (h : Fits before gap token) (hs : token.Solid) (rest : List Char) :
    Follows before (gap ++ (token.text ++ rest)) := by
  obtain ⟨c, r, ht, hc, hne⟩ := hs
  have hhead : gap = [] ∨ ∃ d g, gap = d :: g ∧ (isBlank d ∨ d = '/') := by
    cases gap with
    | nil => exact .inl rfl
    | cons d g => exact .inr ⟨d, g, rfl, h.isGap.head⟩
  constructor
  · intro hb d hd hp
    rcases hhead with rfl | ⟨e, g, rfl, he⟩
    · rw [List.nil_append, ht, List.cons_append, List.head?_cons, Option.mem_some_iff] at hd
      refine h.apart hb ?_ rfl
      rw [Token.continuesWord, ht, List.head?_cons, Option.any_some, hd]
      exact hp
    · rw [List.cons_append, List.head?_cons, Option.mem_some_iff] at hd
      subst hd
      rcases he with he | rfl
      · exact not_isBlank_of_isNamePart hp he
      · exact absurd hp (by decide)
  · intro hb he
    rw [skipInlineGap_append h.isGap (h.sameLine hb), ht, List.cons_append,
      skipInlineGap_solid hc hne, List.head?_cons] at he
    obtain rfl := Option.some.inj he
    exact hc (by decide)
  · intro hb d hd
    by_cases hn : '\n' ∈ gap
    · rw [head_skipInlineGap_append h.isGap hn, Option.mem_some_iff] at hd
      subst hd
      decide
    · obtain rfl := (h.lineEnd hb).resolve_left hn
      obtain ⟨rfl, rfl⟩ := List.cons.inj ht
      rw [skipInlineGap_append h.isGap hn, ht, List.cons_append, skipInlineGap_solid hc hne,
        List.head?_cons, Option.mem_some_iff] at hd
      subst hd
      decide
  · intro f hf hl he
    rcases hhead with rfl | ⟨d, g, rfl, _⟩
    · rw [List.nil_append, ht, List.cons_append, List.head?_cons] at he
      exact hne (Option.some.inj he)
    · exact h.slash f hf hl he

lemma Follows.fits (h : Follows before (gap ++ (token.text ++ rest))) (hg : Gap gap) (hs : token.Solid)
    (hl : before.spacing = .lineEnd → token.StartsLine) : Fits before gap token := by
  obtain ⟨c, r, ht, hc, hne⟩ := hs
  have hinline : '\n' ∉ gap → skipInlineGap (gap ++ (token.text ++ rest)) = c :: (r ++ rest) := by
    intro hn
    rw [skipInlineGap_append hg hn, ht, List.cons_append, skipInlineGap_solid hc hne]
  refine ⟨hg, ?_, ?_, ?_, ?_⟩
  · rintro hb hp rfl
    rw [Token.continuesWord, ht, List.head?_cons, Option.any_some] at hp
    exact h.apart hb c (by rw [ht]; rfl) hp
  · intro hb hn
    exact h.sameLine hb (head_skipInlineGap_append hg hn _)
  · intro hb
    by_cases hn : '\n' ∈ gap
    · exact .inl hn
    · refine .inr ((hl hb).resolve_right ?_)
      rintro ⟨d, r', ht', hd⟩
      obtain ⟨rfl, rfl⟩ := List.cons.inj (ht.symm.trans ht')
      exact h.lineEnd hb c (by rw [hinline hn]; rfl) hd
  · intro f hf hlast he
    refine h.slash f hf hlast ?_
    cases gap with
    | nil => cases he
    | cons d g => exact he

lemma Next.follows (h : Next before token cs rest) (hs : token.Solid) : Follows before cs := by
  obtain ⟨gap, rfl, hf⟩ := h
  exact hf.follows hs rest

lemma Next.skipGap (h : Next before token cs rest) (hs : token.Solid) :
    skipGap cs = token.text ++ rest := by
  obtain ⟨gap, rfl, hf⟩ := h
  obtain ⟨c, r, ht, hc, hne⟩ := hs
  rw [skipGap_append hf.isGap, ht, List.cons_append, skipGap_solid hc hne]

lemma Next.skipInlineGap (h : Next before token cs rest) (hs : token.Solid)
    (hb : before.spacing = .sameLine) : skipInlineGap cs = token.text ++ rest := by
  obtain ⟨gap, rfl, hf⟩ := h
  obtain ⟨c, r, ht, hc, hne⟩ := hs
  rw [skipInlineGap_append hf.isGap (hf.sameLine hb), ht, List.cons_append, skipInlineGap_solid hc hne]

lemma Follows.next (h : Follows before cs) (he : skipGap cs = token.text ++ rest) (hs : token.Solid)
    (hl : before.spacing = .lineEnd → token.StartsLine) : Next before token cs rest := by
  have hs' := hs
  obtain ⟨c, r, ht, _, _⟩ := hs'
  rw [ht, List.cons_append] at he
  obtain ⟨gap, hg, rfl⟩ := exists_gap he
  rw [← List.cons_append, ← ht] at h ⊢
  exact ⟨gap, rfl, h.fits hg hs hl⟩

def Token.separator (t : Token) : List Char :=
  if t.spacing = .sameLine then [' '] else ['\n']

def write : Token → List Token → List Char
  | _, [] => []
  | before, t :: ts => before.separator ++ (t.text ++ write t ts)

lemma fits_separator (before token : Token) : Fits before before.separator token := by
  rw [Token.separator]
  split
  · next hs =>
    refine ⟨.blank (by decide) .nil, fun _ _ => List.cons_ne_nil _ _, fun _ => by decide, ?_, ?_⟩
    · intro hl
      exact absurd (hs.symm.trans hl) Spacing.sameLine_ne_lineEnd
    · intro _ _ _
      decide
  · next hs =>
    refine ⟨.blank (by decide) .nil, fun _ _ => List.cons_ne_nil _ _, fun he => absurd he hs, ?_, ?_⟩
    · intro _
      exact .inl (List.mem_singleton_self _)
    · intro _ _ _
      decide

lemma layout_write (before : Token) (tokens : List Token) : Layout before tokens (write before tokens) [] := by
  induction tokens generalizing before with
  | nil => exact .nil
  | cons t ts ih => exact .cons ⟨before.separator, rfl, fits_separator before t⟩ (ih t)

lemma rendering_write (tokens : List Token) : Rendering tokens (write .start tokens) :=
  ⟨[], layout_write .start tokens, .inl .nil⟩

end AmmCompiler.Source
