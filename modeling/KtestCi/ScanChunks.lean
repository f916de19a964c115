import Mathlib.Data.List.Infix

/-!
# Scanners that are fed in chunks

A scanner reads symbols in a mode and keeps a state. Between chunks it forgets its mode: every
chunk is begun in the idle one. What it makes of a stream therefore depends on where the
stream is cut, but only on the cuts at which its mode is not idle.
-/

namespace KtestCi
namespace ScanChunks

variable {α μ σ : Type*}

structure Scanner (α μ σ : Type*) where
  idle : μ
  next : μ → α → μ
  act : μ → σ → α → σ

/-- The chunks of a stream that is cut after the prefixes a rule picks. The first argument is
what has been read, the second the chunk it ends in. -/
def chunksOf (cut : List α → Bool) : List α → List α → List α → List (List α)
  | _, chunk, [] => if chunk.isEmpty then [] else [chunk]
  | u, chunk, a :: as =>
    if cut u && !chunk.isEmpty then chunk :: chunksOf cut (u ++ [a]) [a] as
    else chunksOf cut (u ++ [a]) (chunk ++ [a]) as

theorem chunksOf_congr {cut₁ cut₂ : List α → Bool} {u₁ u₂ : List α}
    (h : ∀ v, cut₁ (u₁ ++ v) = cut₂ (u₂ ++ v)) (chunk as : List α) :
    chunksOf cut₁ u₁ chunk as = chunksOf cut₂ u₂ chunk as := by
  induction as generalizing u₁ u₂ chunk with
  | nil => rfl
  | cons a as ih =>
    have hhere : cut₁ u₁ = cut₂ u₂ := by
      have hnil := h []
      rwa [List.append_nil, List.append_nil] at hnil
    have hrest : ∀ v, cut₁ ((u₁ ++ [a]) ++ v) = cut₂ ((u₂ ++ [a]) ++ v) := by
      intro v
      rw [List.append_assoc, List.append_assoc]
      exact h ([a] ++ v)
    rw [chunksOf, chunksOf, hhere, ih hrest, ih hrest]

theorem chunksOf_append {cut : List α → Bool} {u c : List α} (chunk as : List α)
    (h : ∀ v w, c = v ++ w → w ≠ [] → cut (u ++ v) = false) :
    chunksOf cut u chunk (c ++ as) = chunksOf cut (u ++ c) (chunk ++ c) as := by
  induction c generalizing u chunk with
  | nil => simp
  | cons a c ih =>
    have hhere : cut u = false := by
      have hnil := h [] (a :: c) rfl (List.cons_ne_nil a c)
      rwa [List.append_nil] at hnil
    have hrest : ∀ v w, c = v ++ w → w ≠ [] → cut ((u ++ [a]) ++ v) = false := by
      intro v w hvw hw
      rw [List.append_assoc, List.singleton_append]
      exact h (a :: v) w (by rw [hvw, List.cons_append]) hw
    rw [List.cons_append, chunksOf, hhere, Bool.false_and, if_neg Bool.false_ne_true, ih _ hrest]
    simp

/-- The rule of a list of chunks: cut where one of them ends. -/
def cutsOf : List (List α) → List α → Bool
  | [], _ => false
  | c :: chunks, u => u.length == c.length || (c.length < u.length && cutsOf chunks (u.drop c.length))

/-- Every way to split a stream is given by its rule. -/
theorem chunksOf_cutsOf {chunks : List (List α)} (h : ∀ c ∈ chunks, c ≠ []) :
    chunksOf (cutsOf chunks) [] [] chunks.flatten = chunks := by
  induction chunks with
  | nil => rfl
  | cons c chunks ih =>
    rw [List.forall_mem_cons] at h
    have hfirst : chunksOf (cutsOf (c :: chunks)) [] [] (c ++ chunks.flatten) =
        chunksOf (cutsOf (c :: chunks)) c c chunks.flatten := by
      refine chunksOf_append [] chunks.flatten ?_
      intro v w hvw hw
      have hlen := congrArg List.length hvw
      rw [List.length_append] at hlen
      have hpos := List.length_pos_iff.mpr hw
      have hne : (v.length == c.length) = false := beq_eq_false_iff_ne.mpr (by omega)
      have hlt : decide (c.length < v.length) = false := decide_eq_false (by omega)
      rw [List.nil_append, cutsOf, hne, hlt, Bool.false_and, Bool.or_false]
    rw [List.flatten_cons, hfirst]
    cases hrest : chunks.flatten with
    | nil =>
      have hcut := ih h.2
      rw [hrest] at hcut
      obtain rfl : chunks = [] := hcut.symm
      simp [chunksOf, h.1]
    | cons a as =>
      have hcut := ih h.2
      rw [hrest, chunksOf, List.isEmpty_nil, Bool.not_true, Bool.and_false,
        if_neg Bool.false_ne_true] at hcut
      have hbegin : cutsOf (c :: chunks) c = true := by simp [cutsOf]
      have hsame : chunksOf (cutsOf (c :: chunks)) (c ++ [a]) [a] as =
          chunksOf (cutsOf chunks) [a] [a] as := by
        refine chunksOf_congr ?_ [a] as
        intro v
        simp [cutsOf]
      rw [chunksOf, hbegin, hsame, if_pos (by simp [h.1])]
      exact congrArg (List.cons c) hcut

namespace Scanner

variable (S : Scanner α μ σ)

def modeAfter (m : μ) (as : List α) : μ := as.foldl S.next m

/-- The state after some symbols that are read without a cut. -/
def feedFrom (m : μ) (s : σ) : List α → σ
  | [] => s
  | a :: as => feedFrom (S.next m a) (S.act m s a) as

/-- A chunk is begun in the idle mode. -/
def feed (s : σ) (chunk : List α) : σ := S.feedFrom S.idle s chunk

def feedAll (s : σ) (chunks : List (List α)) : σ := chunks.foldl S.feed s

/-- The mode after a stream that is cut on the way; a cut behind its last symbol comes later. -/
def modeAt (cut : List α → Bool) : List α → μ → List α → μ
  | _, m, [] => m
  | u, m, a :: as => modeAt cut (u ++ [a]) (S.next (if cut u then S.idle else m) a) as

def scan (cut : List α → Bool) : List α → μ → σ → List α → σ
  | _, _, s, [] => s
  | u, m, s, a :: as =>
    scan cut (u ++ [a]) (S.next (if cut u then S.idle else m) a) (S.act (if cut u then S.idle else m) s a) as

def feedReads (cut : List α → Bool) (s : σ) (as : List α) : σ := S.feedAll s (chunksOf cut [] [] as)

/-- In the middle of something when a prefix has been read. -/
def Inside (cut : List α → Bool) (u : List α) : Prop := S.modeAt cut [] S.idle u ≠ S.idle

variable {S} {cut cut₁ cut₂ : List α → Bool}

theorem feedFrom_append (m : μ) (s : σ) (as bs : List α) :
    S.feedFrom m s (as ++ bs) = S.feedFrom (S.modeAfter m as) (S.feedFrom m s as) bs := by
  induction as generalizing m s with
  | nil => rfl
  | cons a as ih => exact ih (S.next m a) (S.act m s a)

/-- Feeding the chunks one after another is scanning the stream with its cuts. -/
theorem feedAll_chunksOf (s : σ) (u chunk as : List α) :
    S.feedAll s (chunksOf cut u chunk as) =
      S.scan cut u (S.modeAfter S.idle chunk) (S.feed s chunk) as := by
  induction as generalizing s u chunk with
  | nil =>
    cases chunk with
    | nil => rfl
    | cons b chunk => rfl
  | cons a as ih =>
    have hlonger : S.feed s (chunk ++ [a]) =
        S.act (S.modeAfter S.idle chunk) (S.feed s chunk) a := feedFrom_append S.idle s chunk [a]
    have hmode : S.modeAfter S.idle (chunk ++ [a]) = S.next (S.modeAfter S.idle chunk) a :=
      List.foldl_append
    rw [chunksOf, scan]
    cases hcut : cut u with
    | false =>
      simp only [Bool.false_and, Bool.false_eq_true, if_false]
      rw [ih, hlonger, hmode]
    | true =>
      cases chunk with
      | nil =>
        simp only [List.isEmpty_nil, Bool.not_true, Bool.and_false, Bool.false_eq_true, if_false]
        rw [ih, hlonger, hmode]
        rfl
      | cons b chunk => exact ih (S.feed s (b :: chunk)) (u ++ [a]) [a]

theorem feedAll_invariant {Inv : σ → Prop} (hact : ∀ m s a, Inv s → Inv (S.act m s a)) {s : σ}
    (hs : Inv s) (chunks : List (List α)) : Inv (S.feedAll s chunks) := by
  have hfeed : ∀ (chunk : List α) (m : μ) (s : σ), Inv s → Inv (S.feedFrom m s chunk) := by
    intro chunk
    induction chunk with
    | nil => exact fun m s hs => hs
    | cons a chunk ih => exact fun m s hs => ih _ _ (hact m s a hs)
  induction chunks generalizing s with
  | nil => exact hs
  | cons chunk chunks ih => exact ih (hfeed chunk S.idle s hs)

theorem feedAll_map {τ : Type*} {T : Scanner α μ τ} {f : σ → τ} (hidle : T.idle = S.idle)
    (hnext : T.next = S.next) (hact : ∀ m s a, f (S.act m s a) = T.act m (f s) a) (s : σ)
    (chunks : List (List α)) : f (S.feedAll s chunks) = T.feedAll (f s) chunks := by
  have hfeed : ∀ (chunk : List α) (m : μ) (s : σ), f (S.feedFrom m s chunk) = T.feedFrom m (f s) chunk := by
    intro chunk
    induction chunk with
    | nil => exact fun m s => rfl
    | cons a chunk ih =>
      intro m s
      rw [feedFrom, feedFrom, ih, hact, hnext]
  induction chunks generalizing s with
  | nil => rfl
  | cons chunk chunks ih =>
    have hhead : f (S.feed s chunk) = T.feed (f s) chunk := by rw [feed, feed, hfeed, hidle]
    rw [feedAll, feedAll, List.foldl_cons, List.foldl_cons, ← hhead]
    exact ih (S.feed s chunk)

theorem scan_append (u : List α) (m : μ) (s : σ) (as bs : List α) :
    S.scan cut u m s (as ++ bs) =
      S.scan cut (u ++ as) (S.modeAt cut u m as) (S.scan cut u m s as) bs := by
  induction as generalizing u m s with
  | nil => simp [modeAt, scan]
  | cons a as ih =>
    rw [List.cons_append, scan, scan, modeAt, ih, List.append_assoc, List.singleton_append]

/-- Two rules that cut alike wherever the mode is not idle give the same mode and state. -/
theorem scan_congr {u : List α} {m : μ} (s : σ) {as : List α}
    (h : ∀ v w, as = v ++ w → w ≠ [] → S.modeAt cut₁ u m v ≠ S.idle → cut₁ (u ++ v) = cut₂ (u ++ v)) :
    S.modeAt cut₁ u m as = S.modeAt cut₂ u m as ∧ S.scan cut₁ u m s as = S.scan cut₂ u m s as := by
  induction as generalizing u m s with
  | nil => exact ⟨rfl, rfl⟩
  | cons a as ih =>
    have hhere : (if cut₁ u then S.idle else m) = if cut₂ u then S.idle else m := by
      by_cases hm : m = S.idle
      · rw [hm, ite_self, ite_self]
      · have hcut := h [] (a :: as) rfl (List.cons_ne_nil a as) hm
        rw [List.append_nil] at hcut
        rw [hcut]
    simp only [modeAt, scan, hhere]
    refine ih _ ?_
    intro v w hvw hw hmode
    have hcut := h (a :: v) w (by rw [hvw, List.cons_append]) hw (by rwa [modeAt, hhere])
    rwa [List.append_cons] at hcut

theorem feedReads_eq_scan (s : σ) (as : List α) : S.feedReads cut s as = S.scan cut [] S.idle s as :=
  feedAll_chunksOf s [] [] as

theorem feedReads_congr (s : σ) {as : List α}
    (h : ∀ v w, as = v ++ w → w ≠ [] → S.Inside cut₁ v → cut₁ v = cut₂ v) :
    S.feedReads cut₁ s as = S.feedReads cut₂ s as := by
  rw [feedReads_eq_scan, feedReads_eq_scan]
  exact (scan_congr s h).2

/-- Two rules read all streams alike exactly if they agree wherever something is unfinished,
provided every mode can be told from the idle one. -/
theorem feedReads_iff (hsep : ∀ m, m ≠ S.idle → ∃ a, ∀ t, S.act S.idle t a ≠ S.act m t a) (s : σ) :
    (∀ as, S.feedReads cut₁ s as = S.feedReads cut₂ s as) ↔
      ∀ u, S.Inside cut₁ u → cut₁ u = cut₂ u := by
  constructor
  · intro h u
    induction hlen : u.length using Nat.strong_induction_on generalizing u with
    | _ n ih =>
      intro hinside
      -- on a shortest prefix where they differ, both rules have come to the same mode and state
      have hshorter : ∀ v w, u = v ++ w → w ≠ [] → S.Inside cut₁ v → cut₁ ([] ++ v) = cut₂ ([] ++ v) := by
        intro v w hvw hw hv
        refine ih v.length ?_ v rfl hv
        have hpos := List.length_pos_iff.mpr hw
        rw [← hlen, hvw, List.length_append]
        omega
      obtain ⟨hmode, hstate⟩ := scan_congr s hshorter
      obtain ⟨a, ha⟩ := hsep _ hinside
      have hnext := h (u ++ [a])
      rw [feedReads_eq_scan, feedReads_eq_scan, scan_append, scan_append, ← hmode, ← hstate] at hnext
      simp only [scan, List.nil_append] at hnext
      cases h₁ : cut₁ u with
      | true =>
        cases h₂ : cut₂ u with
        | true => rfl
        | false =>
          simp only [h₁, h₂, if_true, Bool.false_eq_true, if_false] at hnext
          exact absurd hnext (ha _)
      | false =>
        cases h₂ : cut₂ u with
        | true =>
          simp only [h₁, h₂, if_true, Bool.false_eq_true, if_false] at hnext
          exact absurd hnext.symm (ha _)
        | false => rfl
  · intro h as
    exact feedReads_congr s (fun v _ _ _ hv => h v hv)

end Scanner
end ScanChunks
end KtestCi
