import AmmCompiler.Proofs.Scanning.Place
import Mathlib.Data.List.TakeWhile

namespace AmmCompiler.Scanner

open Source

variable {α β γ δ : Type} {text : String} {t : Trial} {base cs mid rest : List Char}

def Logged (text : String) (start : Nat) (c c' : Cursor) : Prop :=
  ∃ added, c'.accesses = added ++ c.accesses ∧ ∀ a ∈ added, a.Sound text start

structure Outset (t : Trial) (base : List Char) : Prop where
  suffix : base <:+ t.text.toList
  enough : t.text.length < t.rounds

structure Stands (t : Trial) (base : List Char) (c : Cursor) (cs : List Char) : Prop where
  outset : Outset t base
  suffix : cs <:+ base
  place_eq : c.place = placeOf t.text cs

def Ends (t : Trial) (base : List Char) (scan : Scanner α) (cs : List Char) (o : Except Stop α)
    (rest : List Char) : Prop :=
  ∀ c, Stands t base c cs →
    ∃ c', scan t c = some (o, c') ∧ Stands t base c' rest ∧ Logged t.text (placeOf t.text base) c c'

/-- Where `cs` is left, the scan ends as the reader does. -/
def Follows (t : Trial) (base : List Char) (scan : Scanner α) (cs : List Char)
    (P : β → α → List Char → Prop) (r : Except Failure β) : Prop :=
  Outset t base → cs <:+ base → match r with
    | .ok b => ∃ a rest, Ends t base scan cs (.ok a) rest ∧ P b a rest
    | .error f => ∃ rest, Ends t base scan cs (.error (f.locate t.text.toList).stop) rest

lemma Logged.refl (text : String) (start : Nat) (c : Cursor) : Logged text start c c :=
  ⟨[], rfl, fun _ h => absurd h List.not_mem_nil⟩

lemma Logged.trans {start : Nat} {c d e : Cursor} (h : Logged text start c d) (h' : Logged text start d e) :
    Logged text start c e := by
  obtain ⟨as, hd, has⟩ := h
  obtain ⟨bs, he, hbs⟩ := h'
  refine ⟨bs ++ as, by rw [he, hd, List.append_assoc], fun a ha => ?_⟩
  exact (List.mem_append.mp ha).elim (hbs a) (has a)

lemma Stands.text_suffix {c : Cursor} (h : Stands t base c cs) : cs <:+ t.text.toList :=
  h.suffix.trans h.outset.suffix

lemma bind_ok {x : Scanner α} {k : α → Scanner β} {c d : Cursor} {a : α} (h : x t c = some (.ok a, d)) :
    (x >>= k) t c = k a t d := by
  simp only [bind, ReaderT.bind, ExceptT.bind, ExceptT.mk, StateT.bind, h, Option.bind_some, ExceptT.bindCont]

lemma bind_error {x : Scanner α} {k : α → Scanner β} {c d : Cursor} {e : Stop} (h : x t c = some (.error e, d)) :
    (x >>= k) t c = some (.error e, d) := by
  simp only [bind, ReaderT.bind, ExceptT.bind, ExceptT.mk, StateT.bind, h, Option.bind_some, ExceptT.bindCont]
  rfl

lemma Ends.bind {x : Scanner α} {k : α → Scanner β} {a : α} {o : Except Stop β}
    (h : Ends t base x cs (.ok a) mid) (hk : Ends t base (k a) mid o rest) :
    Ends t base (x >>= k) cs o rest := by
  intro c hc
  obtain ⟨d, hx, hd, hl⟩ := h c hc
  obtain ⟨e, hy, he, hl'⟩ := hk d hd
  exact ⟨e, (bind_ok hx).trans hy, he, hl.trans hl'⟩

lemma Ends.stop {x : Scanner α} {e : Stop} (h : Ends t base x cs (.error e) rest) (k : α → Scanner β) :
    Ends t base (x >>= k) cs (.error e) rest := by
  intro c hc
  obtain ⟨d, hx, hd, hl⟩ := h c hc
  exact ⟨d, bind_error hx, hd, hl⟩

lemma Ends.pure (a : α) : Ends t base (pure a) cs (.ok a) cs :=
  fun c hc => ⟨c, rfl, hc, .refl t.text _ c⟩

lemma Ends.of_standing {x : Scanner α} {o : Except Stop α}
    (h : Outset t base → cs <:+ base → Ends t base x cs o rest) : Ends t base x cs o rest :=
  fun c hc => h hc.outset hc.suffix c hc

lemma Ends.suffix {x : Scanner α} {o : Except Stop α} (h : Ends t base x cs o rest)
    (ht : Outset t base) (hb : cs <:+ base) : rest <:+ base := by
  obtain ⟨_, _, hs, _⟩ := h ⟨placeOf t.text cs, []⟩ ⟨ht, hb, rfl⟩
  exact hs.suffix

variable {x : Scanner α} {k : α → Scanner β} {P : γ → α → List Char → Prop} {Q : δ → β → List Char → Prop}

lemma Follows.of_standing {r : Except Failure γ}
    (h : Outset t base → cs <:+ base → Follows t base x cs P r) : Follows t base x cs P r :=
  fun ht hb => h ht hb ht hb

lemma Follows.of_ends {a : α} {b : γ} (h : Ends t base x cs (.ok a) rest) (hp : P b a rest) :
    Follows t base x cs P (.ok b) :=
  fun _ _ => ⟨a, rest, h, hp⟩

lemma Follows.of_fails {f : Failure} (h : Ends t base x cs (.error (f.locate t.text.toList).stop) rest) :
    Follows t base x cs P (.error f) :=
  fun _ _ => ⟨rest, h⟩

lemma Follows.after {a : α} {r : Except Failure δ} (h : Ends t base x cs (.ok a) mid)
    (hk : Follows t base (k a) mid Q r) : Follows t base (x >>= k) cs Q r := by
  intro ht hb
  have hk := hk ht (h.suffix ht hb)
  cases r with
  | ok d =>
    obtain ⟨b, rest, he, hq⟩ := hk
    exact ⟨b, rest, h.bind he, hq⟩
  | error f =>
    obtain ⟨rest, he⟩ := hk
    exact ⟨rest, h.bind he⟩

lemma Follows.bind {r : Except Failure γ} {g : γ → Except Failure δ} (h : Follows t base x cs P r)
    (hk : ∀ c a rest, r = .ok c → P c a rest → Follows t base (k a) rest Q (g c)) :
    Follows t base (x >>= k) cs Q (r >>= g) := by
  intro ht hb
  have h := h ht hb
  cases r with
  | ok c =>
    obtain ⟨a, rest, he, hp⟩ := h
    exact Follows.after he (hk c a rest rfl hp) ht hb
  | error f =>
    obtain ⟨rest, he⟩ := h
    exact ⟨rest, he.stop k⟩

lemma Follows.finish {Q : γ → β → List Char → Prop} {r : Except Failure γ} (h : Follows t base x cs P r)
    (hk : ∀ c a rest, r = .ok c → P c a rest → Follows t base (k a) rest Q (.ok c)) :
    Follows t base (x >>= k) cs Q r := by
  rw [← bind_pure r]
  exact h.bind hk

lemma Follows.mono {Q : γ → α → List Char → Prop} {r : Except Failure γ} (h : Follows t base x cs P r)
    (hq : ∀ c a rest, P c a rest → Q c a rest) : Follows t base x cs Q r := by
  intro ht hb
  have h := h ht hb
  cases r with
  | ok c =>
    obtain ⟨a, rest, he, hp⟩ := h
    exact ⟨a, rest, he, hq c a rest hp⟩
  | error f => exact h

lemma Follows.pure {a : α} {c : γ} (h : P c a cs) : Follows t base (pure a) cs P (pure c) :=
  .of_ends (.pure a) h

lemma ends_note (a : Access) (h : a.Sound t.text (placeOf t.text base)) : Ends t base (note a) cs (.ok ()) cs := by
  intro c hc
  refine ⟨{ c with accesses := a :: c.accesses }, rfl, ⟨hc.outset, hc.suffix, hc.place_eq⟩, [a], rfl, ?_⟩
  intro b hb
  exact List.mem_singleton.mp hb ▸ h

lemma ends_read : Ends t base read cs (.ok t) cs :=
  fun c hc => ⟨c, rfl, hc, .refl t.text _ c⟩

lemma Outset.length_lt (ht : Outset t base) (hb : cs <:+ base) : cs.length < t.rounds := by
  have hl := (hb.trans ht.suffix).length_le
  rw [String.length_toList] at hl
  exact Nat.lt_of_le_of_lt hl ht.enough

lemma within_induction {step : Scanner α → Scanner α} {motive : Scanner α → List Char → Prop}
    (h : ∀ again cs, (∀ r, r.length < cs.length → motive again r) → motive (step again) cs) (n : Nat) :
    ∀ cs, cs.length < n → motive (within step n) cs := by
  induction n with
  | zero => exact fun _ hn => absurd hn (Nat.not_lt_zero _)
  | succ n ih => exact fun cs hn => h _ cs fun r hr => ih r (by omega)

lemma Ends.loop {step : Scanner α → Scanner α} {a : α} {left : List Char → List Char}
    (h : ∀ again cs, (∀ r, r.length < cs.length → Ends t base again r (.ok a) (left r)) →
      Ends t base (step again) cs (.ok a) (left cs))
    (cs : List Char) : Ends t base (loop step) cs (.ok a) (left cs) :=
  .of_standing fun ht hb => ends_read.bind
    (within_induction (motive := fun x cs => Ends t base x cs (.ok a) (left cs)) h t.rounds cs (ht.length_lt hb))

lemma Follows.loop {step : Scanner α → Scanner α} {read : List Char → Except Failure γ}
    (h : ∀ again cs, (∀ r, r.length < cs.length → Follows t base again r P (read r)) →
      Follows t base (step again) cs P (read cs))
    (cs : List Char) : Follows t base (loop step) cs P (read cs) :=
  .of_standing fun ht hb => .after ends_read
    (within_induction (motive := fun x cs => Follows t base x cs P (read cs)) h t.rounds cs (ht.length_lt hb))

lemma ends_here : Ends t base here cs (.ok (placeOf t.text cs)) cs :=
  fun c hc => ⟨c, hc.place_eq ▸ rfl, hc, .refl t.text _ c⟩

lemma ends_setPlace (h : rest <:+ base) : Ends t base (setPlace (placeOf t.text rest)) cs (.ok ()) rest :=
  fun c hc => ⟨{ c with place := placeOf t.text rest }, rfl, ⟨hc.outset, h, rfl⟩, .refl t.text _ _⟩

lemma ends_moveTo (h : rest <:+ base) : Ends t base (moveTo (placeOf t.text rest)) cs (.ok ()) rest := by
  refine .of_standing fun ht _ => ?_
  have hs : (Access.moved (placeOf t.text rest)).Sound t.text (placeOf t.text base) :=
    ⟨placeOf_mono h ht.suffix, isBoundary_placeOf (h.trans ht.suffix)⟩
  exact (ends_note _ hs).bind (ends_setPlace h)

lemma ends_returnTo (h : rest <:+ base) : Ends t base (returnTo (placeOf t.text rest)) cs (.ok ()) rest := by
  refine .of_standing fun ht _ => ?_
  have hs : (Access.returned (placeOf t.text rest)).Sound t.text (placeOf t.text base) :=
    ⟨placeOf_mono h ht.suffix, isBoundary_placeOf (h.trans ht.suffix)⟩
  exact (ends_note _ hs).bind (ends_setPlace h)

lemma ends_sliceOf {whole : String} {a r : List Char} (h : a ++ r <:+ whole.toList) :
    Ends t base (sliceOf whole (placeOf whole (a ++ r)) (placeOf whole r)) cs (.ok (.ofList a)) cs := by
  obtain ⟨hstart, hstop, hle, hs⟩ := slice?_placeOf h
  have hn : (Access.sliced whole (placeOf whole (a ++ r)) (placeOf whole r)).Sound t.text (placeOf t.text base) :=
    ⟨hstart, hstop, hle⟩
  refine (ends_note _ hn).bind ?_
  rw [hs]
  exact .pure _

lemma ends_slice {a r : List Char} (h : a ++ r <:+ t.text.toList) :
    Ends t base (slice (placeOf t.text (a ++ r)) (placeOf t.text r)) cs (.ok (.ofList a)) cs :=
  ends_read.bind (ends_sliceOf h)

lemma ends_slice_here {a : List Char} (h : a ++ cs <:+ t.text.toList) :
    Ends t base (do slice (placeOf t.text (a ++ cs)) (← here)) cs (.ok (.ofList a)) cs :=
  ends_here.bind (ends_slice h)

lemma ends_ahead : Ends t base ahead cs (.ok cs) cs := by
  refine .of_standing fun ht hb => ?_
  have hs : Ends t base (slice (placeOf t.text (cs ++ [])) (placeOf t.text [])) cs (.ok (.ofList cs)) cs :=
    ends_slice (by rw [List.append_nil]; exact hb.trans ht.suffix)
  rw [List.append_nil, placeOf_end] at hs
  have hp : Ends t base (pure (String.ofList cs).toList) cs (.ok cs) cs := by
    rw [String.toList_ofList]
    exact .pure cs
  exact ends_here.bind (ends_read.bind (hs.bind hp))

lemma ends_current : Ends t base current cs (.ok cs.head?) cs :=
  ends_ahead.bind (.pure _)

lemma ends_current_cons {c : Char} {r : List Char} : Ends t base current (c :: r) (.ok (some c)) (c :: r) :=
  ends_current

lemma ends_peek (n : Nat) : Ends t base (peek n) cs (.ok cs[n]?) cs :=
  ends_ahead.bind (.pure _)

lemma ends_atEnd : Ends t base atEnd cs (.ok cs.isEmpty) cs := by
  refine .of_standing fun ht hb => ends_here.bind (ends_read.bind ?_)
  have he : decide (t.text.utf8ByteSize ≤ placeOf t.text cs) = cs.isEmpty := by
    rw [Bool.eq_iff_iff, decide_eq_true_iff, List.isEmpty_iff, ← placeOf_end]
    constructor
    · intro h
      exact placeOf_inj List.nil_suffix (hb.trans ht.suffix) (h.antisymm' (placeOf_mono List.nil_suffix (hb.trans ht.suffix)))
    · rintro rfl
      exact le_rfl
  rw [← he]
  exact .pure _

lemma ends_advance : Ends t base advance cs (.ok ()) cs.tail := by
  refine .of_standing fun ht hb => ends_current.bind ?_
  cases cs with
  | nil => exact .pure ()
  | cons c r =>
    have hp : placeOf t.text r = placeOf t.text (c :: r) + c.utf8Size := by
      rw [placeOf_append (a := [c]) (hb.trans ht.suffix), byteLength_singleton]
      rfl
    refine ends_here.bind ?_
    rw [← hp]
    exact ends_moveTo ((List.suffix_cons c r).trans hb)

def lastLine (cs : List Char) : List Char :=
  (cs.reverse.takeWhile (· ≠ '\n')).reverse

def linesBefore (cs : List Char) : List Char :=
  (cs.reverse.dropWhile (· ≠ '\n')).reverse

lemma linesBefore_append_lastLine (cs : List Char) : linesBefore cs ++ lastLine cs = cs := by
  rw [linesBefore, lastLine, ← List.reverse_append, List.takeWhile_append_dropWhile, List.reverse_reverse]

lemma lineStart_ofList (cs : List Char) : lineStart (.ofList cs) = byteLength (linesBefore cs) := by
  rw [lineStart, String.toList_ofList]
  rfl

lemma after_eq (cs : List Char) : Position.after cs =
    ⟨(String.ofList cs).toList.count '\n' + 1, (String.ofList (lastLine cs)).length + 1⟩ := by
  rw [Position.after, String.toList_ofList, String.length_ofList, lastLine, List.length_reverse]

lemma ends_lastLine (a : List Char) : Ends t base
    (sliceOf (.ofList a) (lineStart (.ofList a)) (String.ofList a).utf8ByteSize) cs
    (.ok (.ofList (lastLine a))) cs := by
  have ha : linesBefore a ++ (lastLine a ++ []) = (String.ofList a).toList := by
    rw [List.append_nil, linesBefore_append_lastLine, String.toList_ofList]
  rw [lineStart_ofList, ← placeOf_eq ha, ← placeOf_end]
  exact ends_sliceOf ⟨_, ha⟩

lemma ends_counted {n : Nat} (h : n ≤ t.text.utf8ByteSize + 1) : Ends t base (note (.counted n)) cs (.ok ()) cs :=
  ends_note _ h

lemma ends_failAt {a r : List Char} (h : a ++ r = t.text.toList) (message : String) :
    Ends t base (failAt (placeOf t.text r) message : Scanner α) cs (.error (.failure (.after a) message)) cs := by
  have hb : Ends t base (slice 0 (placeOf t.text r)) cs (.ok (.ofList a)) cs := by
    rw [← placeOf_start t.text, ← h]
    exact ends_slice (h ▸ List.suffix_rfl)
  have hsize : byteLength (linesBefore a) + byteLength (lastLine a) ≤ t.text.utf8ByteSize := by
    rw [← byteLength_append, linesBefore_append_lastLine, ← placeOf_eq h]
    exact Nat.sub_le _ _
  have hline := length_le_byteLength (lastLine a)
  have hcount : a.count '\n' ≤ byteLength (linesBefore a) + byteLength (lastLine a) := by
    rw [← byteLength_append, linesBefore_append_lastLine]
    exact List.count_le_length.trans (length_le_byteLength a)
  refine hb.bind ((ends_counted ?_).bind ((ends_lastLine a).bind ((ends_counted ?_).bind ((ends_counted ?_).bind ?_))))
  · rw [lineStart_ofList]
    omega
  · rw [String.toList_ofList]
    omega
  · rw [String.length_ofList]
    omega
  · rw [after_eq]
    exact fun c hc => ⟨c, rfl, hc, .refl t.text _ c⟩

lemma ends_failBefore {a : List Char} {token : String} (h : a ++ (token.toList ++ cs) = t.text.toList)
    (message : String) :
    Ends t base (failBefore token message : Scanner α) cs (.error (.failure (.after a) message)) cs := by
  have hp : placeOf t.text cs = byteLength a + token.utf8ByteSize := by
    rw [placeOf_append ⟨a, h⟩, placeOf_eq h, byteLength_toList]
  have hs : (Access.blamed token (placeOf t.text cs)).Sound t.text (placeOf t.text base) := by
    refine ⟨.ofList a, .ofList cs, ?_, ?_⟩
    · rw [String.append_assoc, ofList_append_ofList h, String.ofList_append, String.ofList_toList]
    · rw [String.utf8ByteSize_append, hp]
      rfl
  refine ends_here.bind ((ends_note _ hs).bind ?_)
  rw [hp, Nat.add_sub_cancel, ← placeOf_eq h]
  exact ends_failAt h message

lemma stop_locate {f : Failure} {a : List Char} (h : a ++ f.rest = t.text.toList) :
    (f.locate t.text.toList).stop = .failure (.after a) (f.fault.message f.rest.head?) := by
  have hc : consumed t.text.toList f.rest = a := by
    rw [← h, consumed, List.length_append, Nat.add_sub_cancel, List.take_left]
  rw [Failure.locate, hc]
  rfl

variable {f : Failure} {message : String}

lemma follows_failAt (h : f.rest <:+ t.text.toList) (hm : message = f.fault.message f.rest.head?) :
    Follows t base (failAt (placeOf t.text f.rest) message) cs P (.error f) := by
  obtain ⟨a, ha⟩ := h
  have he : Ends t base (failAt (placeOf t.text f.rest) message : Scanner α) cs
      (.error (f.locate t.text.toList).stop) cs := by
    rw [stop_locate ha, ← hm]
    exact ends_failAt ha message
  exact .of_fails he

lemma follows_fail (hr : f.rest = cs) (hm : message = f.fault.message f.rest.head?) :
    Follows t base (fail message) cs P (.error f) := by
  refine .of_standing fun ht hb => .after ends_here ?_
  rw [← hr] at hb ⊢
  exact follows_failAt (hb.trans ht.suffix) hm

lemma follows_failBefore {token : String} (h : f.rest <:+ t.text.toList) (hr : f.rest = token.toList ++ cs)
    (hm : message = f.fault.message f.rest.head?) :
    Follows t base (failBefore token message) cs P (.error f) := by
  obtain ⟨a, ha⟩ := h
  have he : Ends t base (failBefore token message : Scanner α) cs (.error (f.locate t.text.toList).stop) cs := by
    rw [stop_locate ha, ← hm]
    exact ends_failBefore (hr ▸ ha) message
  exact .of_fails he

end AmmCompiler.Scanner
