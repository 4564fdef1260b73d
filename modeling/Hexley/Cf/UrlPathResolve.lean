import Mathlib.Data.List.Basic
import Mathlib.Data.List.Induction
import Hexley.Cf.UrlPath

/-!
What `_resolvedPath` makes of a path.

The loop is first lifted from characters to components: at every turn the
index stands at the start of a component, the text in front of it is made of
the components that are kept, each with its delimiter (`before`), and the
text behind it of the components that are left (`walk`, `resolveLoop_eq`).
The walk over components is then compared with the purpose of the function,
`removeDots`. They differ in three places, which `Devolves` collects, and in
that a sole `.` or `./` stays.
-/

namespace Hexley.Cf

open List Resolved Option

variable {delim : UniChar} {strip : Bool} {kept cs : List (List UniChar)}
  {c : List UniChar} {path xs : List UniChar} {idx fuel : ℕ}

/-! ### Text of components -/

def before (delim : UniChar) (kept : List (List UniChar)) : List UniChar :=
  (kept.map (· ++ [delim])).flatten

@[simp] theorem before_nil : before delim [] = [] := rfl

@[simp] theorem before_append (kept' : List (List UniChar)) : before delim (kept ++ kept') =
      before delim kept ++ before delim kept' := by
  simp [before]

@[simp] theorem before_cons : before delim (c :: kept) = c ++ delim :: before delim kept := by
  simp [before]

theorem before_eq_nil : before delim kept = [] ↔ kept = [] := by
  cases kept <;> simp

theorem two_le_before : 2 ≤ (before delim kept).length ↔ ¬(kept = [] ∨ kept = [[]]) := by
  rcases kept with _ | ⟨c, _ | ⟨d, ds⟩⟩
  · simp
  · cases c <;> simp
  · simp only [before_cons, length_append, length_cons]
    constructor
    · simp
    · intro _
      omega

def joined (delim : UniChar) (cs : List (List UniChar)) : List UniChar :=
  [delim].intercalate cs

@[simp] theorem joined_singleton : joined delim [c] = c := by
  simp [joined, intercalate]

theorem joined_cons (h : cs ≠ []) : joined delim (c :: cs) = c ++ delim :: joined delim cs := by
  obtain ⟨d, ds, rfl⟩ := exists_cons_of_ne_nil h
  simp [joined, intercalate_cons_cons]

theorem joined_concat : joined delim (kept ++ [c]) = before delim kept ++ c := by
  induction kept with
  | nil => simp
  | cons d ds ih => simp [joined_cons, ih]

def behind (delim : UniChar) : List (List UniChar) → List UniChar
  | [] => []
  | c :: cs => delim :: joined delim (c :: cs)

theorem joined_eq_append : joined delim (c :: cs) = c ++ behind delim cs := by
  cases cs with
  | nil => simp [behind]
  | cons d ds => exact joined_cons (by simp)

@[simp] theorem behind_eq_nil : behind delim cs = [] ↔ cs = [] := by
  cases cs <;> simp [behind]

theorem joined_eq_nil (h : cs ≠ []) : joined delim cs = [] ↔ cs = [[]] := by
  obtain ⟨c, ds, rfl⟩ := exists_cons_of_ne_nil h
  simp [joined_eq_append]

/-! ### The walk over components -/

/-- A turn at a component either goes on to the next component with some
components kept, or leaves the loop. -/
inductive ComponentTurn
  | next (kept : List (List UniChar))
  | leave (result : Resolved)

/-- A turn of the loop at the component `c`, in front of the components
`cs`. -/
def componentTurn (delim : UniChar) (strip : Bool) (kept : List (List UniChar))
    (c : List UniChar) (cs : List (List UniChar)) : ComponentTurn :=
  if c = [dot] then
    if cs = [] then .leave (.whole (if kept ≠ [] then before delim kept else [dot]))
    else if cs ≠ [[]] ∨ kept ≠ [] then .next kept
    else .leave (.whole [dot, delim])
  else if c = [dot, dot] ∧ Cancels kept then
    if cs ≠ [] then .next kept.dropLast
    else if kept.dropLast ≠ [] then .leave (.whole (before delim kept.dropLast))
    else .leave (.whole [dot, slash, 0])
  else if c = [dot, dot] ∧ strip ∧ (kept = [] ∨ kept = [[]]) then
    if cs = [[]] then .leave (.whole (before delim kept ++ [dot, dot, delim]))
    else if cs = [] then .leave ⟨[], (kept.length : ℤ) - 1⟩
    else .next kept
  else if cs = [] then .leave (.whole (before delim kept ++ c))
  else .next (kept ++ [c])

theorem componentTurn_next {kept' : List (List UniChar)}
    (h : componentTurn delim strip kept c cs = .next kept') :
    cs ≠ [] ∧ ∀ x ∈ kept', x ∈ kept ∨ x = c := by
  unfold componentTurn at h
  split_ifs at h with _ _ _ _ hcs <;> injection h with h <;> subst h
  · exact ⟨‹_›, fun x hx => .inl hx⟩
  · exact ⟨hcs, fun x hx => .inl ((dropLast_sublist kept).subset hx)⟩
  · exact ⟨‹_›, fun x hx => .inl hx⟩
  · exact ⟨‹_›, fun x hx => by simpa using hx⟩

def walk (delim : UniChar) (strip : Bool) : List (List UniChar) → List (List UniChar) → Resolved
  | kept, [] => .whole (before delim kept)
  | kept, c :: cs =>
    match componentTurn delim strip kept c cs with
    | .next kept => walk delim strip kept cs
    | .leave r => r

/-! ### One turn -/

variable {P l : List UniChar}

theorem getElem?_length_add (i : ℕ) : (P ++ xs)[P.length + i]? = xs[i]? := by
  rw [getElem?_append_right (by omega)]
  congr 1
  omega

theorem drop_length_add (i : ℕ) : (P ++ xs).drop (P.length + i) = xs.drop i := by
  simp

/-- The conditions of a turn look only at the text behind the index. -/
theorem turn_append : turn delim strip (P ++ xs) P.length = if xs[0]? = some dot then
        if xs.length = 1 then .leave (.whole (if P ≠ [] then P else xs))
        else if xs[1]? = some delim then
          if xs.length ≠ 2 ∨ P ≠ [] then .next (P ++ xs.drop 2) P.length
          else .leave (.whole (P ++ xs))
        else if xs[1]? = some dot ∧ (xs.length = 2 ∨ xs[2]? = some delim) then
          if 2 ≤ P.length then
            compactOut (P ++ xs) delim P.length (lastDelim (P ++ xs) delim (P.length - 1))
          else leadingDotDot (P ++ xs) delim strip P.length
        else advance (P ++ xs) delim P.length
      else advance (P ++ xs) delim P.length := by
  have h0 : (P ++ xs)[P.length]? = xs[0]? := getElem?_length_add 0
  have hlen (k : ℕ) : P.length + k = (P ++ xs).length ↔ xs.length = k := by
    rw [length_append]
    omega
  have hnil : P.length ≠ 0 ↔ P ≠ [] := by simp
  unfold turn
  simp only [h0, getElem?_length_add, drop_length_add, take_left', hlen, hnil, ne_eq]
  by_cases hP : P = []
  · subst hP
    simp
  · simp [hP]

theorem advance_append : advance (P ++ xs) delim P.length =
      .next (P ++ xs) (P.length + (xs.takeWhile (· ≠ delim)).length + 1) := by
  unfold advance
  rw [drop_left' rfl]

theorem turn_dot : turn delim strip (P ++ joined delim ([dot] :: cs)) P.length =
      if cs = [] then .leave (.whole (if P ≠ [] then P else [dot]))
      else if cs ≠ [[]] ∨ P ≠ [] then .next (P ++ joined delim cs) P.length
      else .leave (.whole [dot, delim]) := by
  rw [turn_append, if_pos (by simp [joined_eq_append])]
  rcases cs with _ | ⟨d, ds⟩
  · simp
  · have hempty := @joined_eq_nil delim (d :: ds) (by simp)
    rw [joined_cons (by simp), if_neg (by simp), if_pos (by simp)]
    by_cases hds : d :: ds = [[]]
    · by_cases hP : P = [] <;> simp [hP, hds]
    · simp [hds, hempty]

section

variable (hD : delim ≠ dot)
include hD

theorem turn_other (hc : delim ∉ c) (h1 : c ≠ [dot]) (h2 : c ≠ [dot, dot]) :
    turn delim strip (P ++ joined delim (c :: cs)) P.length =
      advance (P ++ joined delim (c :: cs)) delim P.length := by
  have hbehind : (behind delim cs)[0]? ≠ some dot := by
    cases cs <;> simp [behind, hD]
  rw [joined_eq_append, turn_append]
  rcases c with _ | ⟨a, _ | ⟨b, _ | ⟨d, ds⟩⟩⟩
  · rw [if_neg (by simpa using hbehind)]
  · rw [if_neg (by simpa using h1)]
  · have hb : b ≠ delim := fun h => hc (by simp [h])
    by_cases ha : a = dot <;> simp_all
  · have hb : b ≠ delim := fun h => hc (by simp [h])
    have hd : d ≠ delim := fun h => hc (by simp [h])
    by_cases ha : a = dot <;> simp_all

theorem turn_dotDot : turn delim strip (P ++ joined delim ([dot, dot] :: cs)) P.length =
      if 2 ≤ P.length then
        compactOut (P ++ joined delim ([dot, dot] :: cs)) delim P.length
          (lastDelim (P ++ joined delim ([dot, dot] :: cs)) delim (P.length - 1))
      else leadingDotDot (P ++ joined delim ([dot, dot] :: cs)) delim strip P.length := by
  rw [turn_append, if_pos (by simp [joined_eq_append]), if_neg (by simp [joined_eq_append]),
    if_neg (by simpa [joined_eq_append] using hD.symm), if_pos]
  cases cs <;> simp [joined_cons]

end

theorem lastDelim_append {k t tail : List UniChar} (ht : delim ∉ t)
    (hk : k = [] ∨ k.getLast? = some delim) :
    lastDelim (k ++ t ++ tail) delim (k ++ t).length = k.length := by
  induction t using reverseRecOn generalizing tail with
  | nil =>
    rcases hk with rfl | hk
    · rfl
    · obtain ⟨k', rfl⟩ : ∃ k', k = k' ++ [delim] :=
        ⟨k.dropLast, by rw [dropLast_append_getLast?]; exact hk⟩
      simp [lastDelim]
  | append_singleton t a ih =>
    have ha : a ≠ delim := fun h => ht (by simp [h])
    have ht' : delim ∉ t := fun h => ht (by simp [h])
    have hlast : (k ++ (t ++ [a]) ++ tail)[(k ++ t).length]? = some a := by
      simp
    rw [show (k ++ (t ++ [a])).length = (k ++ t).length + 1 by simp [Nat.add_assoc], lastDelim,
      if_neg (by rw [hlast]; simpa using ha)]
    have hscan : lastDelim (k ++ t ++ a :: tail) delim (k ++ t).length = k.length := ih ht'
    simpa using hscan

theorem before_eq_nil_or (k : List (List UniChar)) :
    before delim k = [] ∨ (before delim k).getLast? = some delim := by
  rcases eq_nil_or_concat' k with rfl | ⟨k, t, rfl⟩
  · exact .inl rfl
  · right
    simp

theorem genuine_iff {t ys : List UniChar} : (t.length + 1 ≠ 3 ∨ (t ++ delim :: ys)[0]? ≠ some dot ∨
        (t ++ delim :: ys)[1]? ≠ some dot) ↔ t ≠ [dot, dot] := by
  rcases t with _ | ⟨a, _ | ⟨b, _ | ⟨d, ds⟩⟩⟩
  · simp
  · simp
  · by_cases ha : a = dot <;> simp [ha]
  · simp

theorem compactOut_before {k : List (List UniChar)} {t : List UniChar} (ht : delim ∉ t)
    (hpath : path = before delim (k ++ [t]) ++ joined delim ([dot, dot] :: cs))
    (hidx : idx = (before delim (k ++ [t])).length) :
    compactOut path delim idx (lastDelim path delim (idx - 1)) = if t ≠ [dot, dot] then
        if cs ≠ [] then .next (before delim k ++ joined delim cs) (before delim k).length
        else if k ≠ [] then .leave (.whole (before delim k)) else .leave (.whole [dot, slash, 0])
      else advance path delim idx := by
  generalize hB : before delim k = B at *
  obtain rfl : path = B ++ (t ++ delim :: dot :: dot :: behind delim cs) := by
    rw [hpath, ← hB, joined_eq_append]
    simp
  obtain rfl : idx = B.length + (t.length + 1) := by
    rw [hidx, ← hB]
    simp
  have hlast : lastDelim (B ++ (t ++ delim :: dot :: dot :: behind delim cs)) delim
      (B.length + (t.length + 1) - 1) = B.length := by
    have hscan := @lastDelim_append delim B t (delim :: dot :: dot :: behind delim cs) ht
      (hB ▸ before_eq_nil_or k)
    rwa [append_assoc, length_append] at hscan
  have h0 : (B ++ (t ++ delim :: dot :: dot :: behind delim cs))[B.length]? =
      (t ++ delim :: dot :: dot :: behind delim cs)[0]? := getElem?_length_add 0
  have hgenuine : (B.length ≠ B.length + (t.length + 1) ∧
      (B.length + (t.length + 1) - B.length ≠ 3 ∨
        (t ++ delim :: dot :: dot :: behind delim cs)[0]? ≠ some dot ∨
        (t ++ delim :: dot :: dot :: behind delim cs)[1]? ≠ some dot)) ↔ t ≠ [dot, dot] := by
    rw [Nat.add_sub_cancel_left, genuine_iff]
    exact and_iff_right (by omega)
  have hnil : B.length ≠ 0 ↔ k ≠ [] := by simp [← hB, before_eq_nil]
  have hend : B.length + (t.length + 1) + 2 ≠
      (B ++ (t ++ delim :: dot :: dot :: behind delim cs)).length ↔ cs ≠ [] := by
    rw [← not_iff_not, not_not, not_not, ← @behind_eq_nil delim, ← length_eq_zero_iff]
    simp only [length_append, length_cons]
    omega
  have hdrop (hcs : cs ≠ []) : (B ++ (t ++ delim :: dot :: dot :: behind delim cs)).drop
      (B.length + (t.length + 1) + 3) = joined delim cs := by
    obtain ⟨d, ds, rfl⟩ := exists_cons_of_ne_nil hcs
    rw [show B.length + (t.length + 1) + 3 = B.length + (t.length + 4) by omega, drop_length_add,
      drop_length_add]
    rfl
  rw [hlast]
  unfold compactOut
  simp only [h0, getElem?_length_add, hgenuine, hnil, hend, take_left']
  by_cases hcs : cs = []
  · simp [hcs]
  · simp [hcs, hdrop]

theorem leadingDotDot_append :
    leadingDotDot (P ++ joined delim ([dot, dot] :: cs)) delim true P.length =
      if cs = [[]] then .leave (.whole (P ++ [dot, dot, delim]))
      else if cs = [] then .leave ⟨P.take (P.length - 1), (P.length : ℤ) - 1⟩
      else .next (P ++ joined delim cs) P.length := by
  unfold leadingDotDot
  rcases cs with _ | ⟨d, ds⟩
  · simp [take_append_of_le_length]
  · have hdrop : (P ++ dot :: dot :: delim :: joined delim (d :: ds)).drop (P.length + 3) =
        joined delim (d :: ds) := drop_length_add 3
    have hempty := @joined_eq_nil delim (d :: ds) (by simp)
    by_cases hds : d :: ds = [[]]
    · simp [hds, joined_cons]
    · rw [joined_cons (by simp)]
      simp [hds, hempty, hdrop]

/-! ### The loop -/

theorem Cancels.ne (h : Cancels kept) : ¬(kept = [] ∨ kept = [[]]) := by
  rintro (h' | h')
  · exact h.1 h'
  · exact h.2.1 h'

def afterTurn (delim : UniChar) (strip : Bool) (fuel : ℕ) (cs : List (List UniChar)) :
    ComponentTurn → Option Resolved
  | .next kept => resolveLoop delim strip fuel
      (before delim kept ++ joined delim cs) (before delim kept).length
  | .leave r => some r

/-- The turn at the component `c` is the turn of the walk there. -/
def WalksOn (delim : UniChar) (strip : Bool) (fuel : ℕ) (kept : List (List UniChar))
    (c : List UniChar) (cs : List (List UniChar)) : Prop :=
  resolveLoop delim strip (fuel + 1) (before delim kept ++ joined delim (c :: cs))
      (before delim kept).length =
    afterTurn delim strip fuel cs (componentTurn delim strip kept c cs)

def ComponentTurn.text (delim : UniChar) (cs : List (List UniChar)) : ComponentTurn → Turn
  | .next kept =>
    .next (before delim kept ++ joined delim cs) (before delim kept).length
  | .leave r => .leave r

theorem walksOn_of_turn (hne : joined delim (c :: cs) ≠ [])
    (ht : turn delim strip (before delim kept ++ joined delim (c :: cs))
      (before delim kept).length = (componentTurn delim strip kept c cs).text delim cs) :
    WalksOn delim strip fuel kept c cs := by
  unfold WalksOn
  rw [resolveLoop, if_pos (by simpa using length_pos_iff.mpr hne), ht]
  cases componentTurn delim strip kept c cs <;> rfl

/-- Passing over a component: either it was the last one, and the loop ends
behind it, or the index is at the next one. -/
theorem walksOn_pass (hc : delim ∉ c) (hne : joined delim (c :: cs) ≠ [])
    (hfuel : (joined delim (c :: cs)).length < fuel + 1)
    (hkeep : componentTurn delim strip kept c cs =
      if cs = [] then .leave (.whole (before delim kept ++ c)) else .next (kept ++ [c]))
    (ht : turn delim strip (before delim kept ++ joined delim (c :: cs))
      (before delim kept).length =
      advance (before delim kept ++ joined delim (c :: cs)) delim (before delim kept).length) :
    WalksOn delim strip fuel kept c cs := by
  have hpos := length_pos_iff.mpr hne
  have htake : (joined delim (c :: cs)).takeWhile (· ≠ delim) = c := by
    rw [joined_eq_append, takeWhile_append_of_pos]
    · cases cs <;> simp [behind]
    · intro a ha
      simpa using fun h : a = delim => hc (h ▸ ha)
  unfold WalksOn
  rw [hkeep, resolveLoop, if_pos (by simpa using hpos), ht, advance_append, htake]
  dsimp only
  split_ifs with hcs
  · subst hcs
    rcases fuel with _ | f
    · omega
    rw [resolveLoop, if_neg (by simp)]
    simp [afterTurn]
  · simp [afterTurn, joined_cons hcs, Nat.add_assoc]

theorem walksOn_dot : WalksOn delim strip fuel kept [dot] cs := by
  refine walksOn_of_turn (by simp [joined_eq_append]) ?_
  rw [turn_dot, componentTurn, if_pos rfl]
  simp only [ne_eq, before_eq_nil]
  split_ifs <;> rfl

section

variable (hD : delim ≠ dot)
include hD

theorem walksOn_cancels {k : List (List UniChar)} {t : List UniChar}
    (ht : delim ∉ t) (hk : Cancels (k ++ [t])) :
    WalksOn delim strip fuel (k ++ [t]) [dot, dot] cs := by
  refine walksOn_of_turn (by simp [joined_eq_append]) ?_
  rw [componentTurn, if_neg (by simp), if_pos ⟨rfl, hk⟩, dropLast_concat, turn_dotDot hD,
    if_pos (two_le_before.mpr hk.ne), compactOut_before ht rfl rfl,
    if_pos (show t ≠ [dot, dot] by simpa using hk.2.2)]
  split_ifs <;> rfl

theorem walksOn_strip (hfirst : kept = [] ∨ kept = [[]]) :
    WalksOn delim true fuel kept [dot, dot] cs := by
  have hcancel : ¬Cancels kept := fun h => h.ne hfirst
  refine walksOn_of_turn (by simp [joined_eq_append]) ?_
  rw [componentTurn, if_neg (by simp), if_neg (fun h => hcancel h.2), if_pos ⟨rfl, rfl, hfirst⟩,
    turn_dotDot hD, if_neg (fun h => two_le_before.mp h hfirst), leadingDotDot_append]
  rcases hfirst with rfl | rfl <;> split_ifs <;> simp [ComponentTurn.text]

section

variable (hkept : ∀ x ∈ kept, delim ∉ x)
  (hfuel : (joined delim ([dot, dot] :: cs)).length < fuel + 1)
include hkept hfuel

theorem walksOn_keep (hcancel : ¬Cancels kept) (hstrip : ¬(strip ∧ (kept = [] ∨ kept = [[]]))) :
    WalksOn delim strip fuel kept [dot, dot] cs := by
  refine walksOn_pass (by simpa using hD) (by simp [joined_eq_append]) hfuel ?_ ?_
  · rw [componentTurn, if_neg (by simp), if_neg (fun h => hcancel h.2),
      if_neg (fun h => hstrip h.2)]
  rw [turn_dotDot hD]
  by_cases hfirst : kept = [] ∨ kept = [[]]
  · have hflag : strip = false := by simpa [hfirst] using hstrip
    rw [if_neg (fun h => two_le_before.mp h hfirst), leadingDotDot, hflag]
    simp
  · rw [if_pos (two_le_before.mpr hfirst)]
    rcases eq_nil_or_concat' kept with rfl | ⟨k, t, rfl⟩
    · exact absurd (.inl rfl) hfirst
    · have htop : t = [dot, dot] := by
        by_contra ht
        apply hcancel
        exact ⟨fun h => hfirst (.inl h), fun h => hfirst (.inr h), by simpa using ht⟩
      rw [compactOut_before (hkept t (by simp)) rfl rfl, if_neg (by simpa using htop)]

theorem walksOn_dotDot : WalksOn delim strip fuel kept [dot, dot] cs := by
  by_cases hcancel : Cancels kept
  · obtain ⟨k, t, rfl⟩ := (eq_nil_or_concat' kept).resolve_left hcancel.1
    exact walksOn_cancels hD (hkept t (by simp)) hcancel
  by_cases hstrip : strip ∧ (kept = [] ∨ kept = [[]])
  · rw [hstrip.1]
    exact walksOn_strip hD hstrip.2
  · exact walksOn_keep hD hkept hfuel hcancel hstrip

end

theorem walksOn_other (hc : delim ∉ c) (h1 : c ≠ [dot])
    (h2 : c ≠ [dot, dot]) (hfuel : (joined delim (c :: cs)).length < fuel + 1) :
    WalksOn delim strip fuel kept c cs := by
  have hkeep : componentTurn delim strip kept c cs =
      if cs = [] then .leave (.whole (before delim kept ++ c)) else .next (kept ++ [c]) := by
    rw [componentTurn, if_neg h1, if_neg (fun h => h2 h.1), if_neg (fun h => h2 h.1)]
  by_cases hempty : joined delim (c :: cs) = []
  · -- the last component is empty, and the index is at the end
    obtain ⟨rfl, rfl⟩ : c = [] ∧ cs = [] := by simpa [joined_eq_append] using hempty
    unfold WalksOn
    simp [hkeep, afterTurn, resolveLoop]
  · exact walksOn_pass hc hempty hfuel hkeep (turn_other hD hc h1 h2)

/-- The loop, from a component on, is the walk over the components. The
induction is on the components that are left. -/
theorem resolveLoop_eq (hkept : ∀ x ∈ kept, delim ∉ x)
    (hne : cs ≠ []) (hcs : ∀ x ∈ cs, delim ∉ x) (hfuel : (joined delim cs).length < fuel) :
    resolveLoop delim strip fuel (before delim kept ++ joined delim cs) (before delim kept).length =
      some (walk delim strip kept cs) := by
  induction cs generalizing kept fuel with
  | nil => exact absurd rfl hne
  | cons c cs ih =>
    rcases fuel with _ | fuel
    · omega
    have hc : delim ∉ c := hcs c (by simp)
    have hstep : WalksOn delim strip fuel kept c cs := by
      by_cases h1 : c = [dot]
      · rw [h1]
        exact walksOn_dot
      by_cases h2 : c = [dot, dot]
      · rw [h2] at hfuel ⊢
        exact walksOn_dotDot hD hkept hfuel
      exact walksOn_other hD hc h1 h2 hfuel
    rw [hstep, walk]
    cases hturn : componentTurn delim strip kept c cs with
    | leave r => rfl
    | next kept' =>
      obtain ⟨hne', hmem⟩ := componentTurn_next hturn
      apply ih _ hne' (fun x hx => hcs x (by simp [hx]))
      · rw [joined_cons hne'] at hfuel
        simp only [length_append, length_cons] at hfuel
        omega
      · intro x hx
        rcases hmem x hx with h | rfl
        · exact hkept x h
        · exact hc

end

/-! ### Settled components -/

/-- Components without anything that could be removed: walking over them
keeps them all. -/
def Settled (strip : Bool) (kept : List (List UniChar)) : Prop :=
  kept.foldl (keep strip) [] = kept

theorem keep_eq_or (strip : Bool) (kept : List (List UniChar)) (c : List UniChar) :
    keep strip kept c = kept ∨ keep strip kept c = kept.dropLast ∨
      keep strip kept c = kept ++ [c] := by
  unfold keep
  split_ifs <;> simp

theorem length_keep_le : (keep strip kept c).length ≤ kept.length + 1 := by
  rcases keep_eq_or strip kept c with h | h | h <;> simp only [h, length_append,
    length_dropLast, length_singleton] <;> omega

theorem keep_eq_append (h : kept.length < (keep strip kept c).length) :
    keep strip kept c = kept ++ [c] := by
  rcases keep_eq_or strip kept c with h' | h' | h'
  · rw [h'] at h
    omega
  · rw [h', length_dropLast] at h
    omega
  · exact h'

theorem length_foldl_keep_le (kept : List (List UniChar)) :
    (kept.foldl (keep strip) []).length ≤ kept.length := by
  induction kept using reverseRecOn with
  | nil => simp
  | append_singleton kept c ih =>
    rw [foldl_append, length_append, foldl_cons, foldl_nil]
    exact le_trans length_keep_le (by simpa using ih)

theorem settled_nil : Settled strip [] := rfl

theorem settled_concat :
    Settled strip (kept ++ [c]) ↔ Settled strip kept ∧ keep strip kept c = kept ++ [c] := by
  unfold Settled
  rw [foldl_append, foldl_cons, foldl_nil]
  constructor
  · intro h
    have hle := @length_foldl_keep_le strip kept
    have happ := @keep_eq_append strip (kept.foldl (keep strip) []) c (by
      rw [h, length_append]
      simp only [length_singleton]
      omega)
    rw [happ] at h
    have hk : kept.foldl (keep strip) [] = kept := append_cancel_right h
    rw [hk] at happ
    exact ⟨hk, happ⟩
  · rintro ⟨h, hkeep⟩
    rw [h, hkeep]

theorem Settled.dropLast (h : Settled strip kept) : Settled strip kept.dropLast := by
  rcases eq_nil_or_concat' kept with rfl | ⟨k, t, rfl⟩
  · exact h
  · rw [dropLast_concat]
    exact (settled_concat.mp h).1

theorem Settled.of_keep (h : Settled strip kept) (c : List UniChar) :
    Settled strip (keep strip kept c) := by
  rcases keep_eq_or strip kept c with h' | h' | h'
  · rwa [h']
  · rw [h']
    exact h.dropLast
  · rw [h']
    exact settled_concat.mpr ⟨h, h'⟩

theorem keepLast_of_keep (h : keep strip kept c = kept ++ [c]) :
    keepLast strip kept c = kept ++ [c] := by
  have hlen := congrArg List.length h
  rw [length_append, length_singleton] at hlen
  unfold keep at hlen
  unfold keepLast
  split_ifs at hlen ⊢
  · omega
  · rw [length_dropLast] at hlen
    omega
  · omega
  · rfl
  · rfl

theorem Settled.dotDot_not_mem (h : Settled true kept) : [dot, dot] ∉ kept := by
  induction kept using reverseRecOn with
  | nil => simp
  | append_singleton kept c ih =>
    obtain ⟨hk, hkeep⟩ := settled_concat.mp h
    have hc : c ≠ [dot, dot] := by
      rintro rfl
      have hlast := keepLast_of_keep hkeep
      by_cases hcancel : Cancels kept <;> simp [keepLast, hcancel] at hlast
    simp only [mem_append, mem_singleton, not_or]
    exact ⟨ih hk, fun h => hc h.symm⟩

theorem Settled.strip_eq_false (h : Settled strip kept) (hcancel : ¬Cancels kept)
    (hstrip : ¬(strip ∧ (kept = [] ∨ kept = [[]]))) : strip = false := by
  by_contra hflag
  have hflag : strip = true := by simpa using hflag
  subst hflag
  apply hcancel
  have hfirst : ¬(kept = [] ∨ kept = [[]]) := fun h => hstrip ⟨rfl, h⟩
  refine ⟨fun h => hfirst (.inl h), fun h => hfirst (.inr h), ?_⟩
  intro hlast
  exact h.dotDot_not_mem (mem_of_getLast? hlast)

/-! ### The walk against the purpose -/

/-- The places in which the function does not do what it is for: a `..` at
the end of the path takes away the only component that is kept, or leading
`..` components are to be stripped and the last one that is left is one. -/
def Devolves (strip : Bool) : List (List UniChar) → List (List UniChar) → Prop
  | _, [] => False
  | kept, c :: cs =>
    (c = [dot, dot] ∧ cs = [] ∧ Cancels kept ∧ kept.length = 1) ∨
      (strip ∧ c = [dot, dot] ∧ (cs = [] ∨ cs = [[]]) ∧ (kept = [] ∨ kept = [[]])) ∨
      Devolves strip (keep strip kept c) cs

theorem removeDots_cons (h : cs ≠ []) :
    removeDots strip kept (c :: cs) = removeDots strip (keep strip kept c) cs := by
  obtain ⟨d, ds, rfl⟩ := exists_cons_of_ne_nil h
  rfl

theorem turn_next_eq_keep {kept' : List (List UniChar)} (hs : Settled strip kept)
    (h : componentTurn delim strip kept c cs = .next kept') : kept' = keep strip kept c := by
  -- A `..` that is neither cancelled nor stripped is kept by design, too.
  have hflag := hs.strip_eq_false
  grind [componentTurn, keep]

theorem before_dropLast_sublist : (before delim kept.dropLast).Sublist (before delim kept) := by
  rcases eq_nil_or_concat' kept with rfl | ⟨k, t, rfl⟩
  · simp
  · rw [dropLast_concat, before_append]
    exact sublist_append_left _ _

theorem before_keep_sublist (strip : Bool) (kept : List (List UniChar)) (c : List UniChar) :
    (before delim (keep strip kept c)).Sublist (before delim kept ++ (c ++ [delim])) := by
  rcases keep_eq_or strip kept c with h | h | h <;> rw [h]
  · exact sublist_append_left _ _
  · exact before_dropLast_sublist.trans (sublist_append_left _ _)
  · simp

/-- What is expected of the text `r` that is returned for a path whose text
without dot components is `expected`. -/
def Expected (delim : UniChar) (expected r : List UniChar) : Prop :=
  r = expected ∨ expected = [] ∧ (r = [dot] ∨ r = [dot, delim])

theorem componentTurn_leave {r : Resolved} (hs : Settled strip kept)
    (hgood : ¬Devolves strip kept (c :: cs)) (h : componentTurn delim strip kept c cs = .leave r) :
    ∃ E, r = .whole E ∧ Expected delim (joined delim (removeDots strip kept (c :: cs))) E ∧
      E.Sublist (before delim kept ++ joined delim (c :: cs)) := by
  simp only [Devolves, not_or] at hgood
  obtain ⟨hgood₁, hgood₂, -⟩ := hgood
  have hflag := hs.strip_eq_false
  unfold componentTurn at h
  split_ifs at h with hdot hcs hk hsole hcancel hmore hdrop hstrip hempty hnil hlast <;>
    injection h with h
  · subst hdot hcs
    refine ⟨_, h.symm, .inl ?_, sublist_append_left _ _⟩
    simp [removeDots, keepLast, joined_concat]
  · subst hdot hcs
    obtain rfl : kept = [] := by simpa using hk
    exact ⟨_, h.symm, .inr ⟨by simp [removeDots, keepLast], .inl rfl⟩, by simp⟩
  · subst hdot
    obtain ⟨rfl, rfl⟩ : cs = [[]] ∧ kept = [] := by simpa using hsole
    exact ⟨_, h.symm, .inr ⟨by simp [removeDots, keep, keepLast], .inr rfl⟩, by simp [joined_cons]⟩
  · obtain rfl : cs = [] := by simpa using hmore
    refine ⟨_, h.symm, .inl ?_, before_dropLast_sublist.trans (sublist_append_left _ _)⟩
    simp [removeDots, keepLast, hcancel, joined_concat]
  · -- the only component is taken away
    have hlen := congrArg List.length (not_not.mp hdrop)
    rw [length_dropLast, length_nil] at hlen
    have hpos := length_pos_iff.mpr hcancel.2.1
    exact absurd ⟨hcancel.1, not_not.mp hmore, hcancel.2, by omega⟩ hgood₁
  · exact absurd ⟨hstrip.2.1, hstrip.1, .inr hempty, hstrip.2.2⟩ hgood₂
  · exact absurd ⟨hstrip.2.1, hstrip.1, .inl hnil, hstrip.2.2⟩ hgood₂
  · subst hlast
    have hkeep : keepLast strip kept c = kept ++ [c] := by grind [keepLast]
    exact ⟨_, h.symm, .inl (by simp [removeDots, hkeep, joined_concat]), by simp⟩

theorem walk_expected (hs : Settled strip kept) (hne : cs ≠ []) (hgood : ¬Devolves strip kept cs) :
    ∃ E, walk delim strip kept cs = .whole E ∧
      Expected delim (joined delim (removeDots strip kept cs)) E ∧
      E.Sublist (before delim kept ++ joined delim cs) := by
  induction cs generalizing kept with
  | nil => exact absurd rfl hne
  | cons c cs ih =>
    rw [walk]
    cases hturn : componentTurn delim strip kept c cs with
    | leave r => exact componentTurn_leave hs hgood hturn
    | next kept' =>
      have hcs := (componentTurn_next hturn).1
      obtain rfl := turn_next_eq_keep hs hturn
      rw [removeDots_cons hcs]
      obtain ⟨E, hE, hexp, hsub⟩ := ih (hs.of_keep c) hcs (fun hdev => hgood (.inr (.inr hdev)))
      refine ⟨E, hE, hexp, hsub.trans ?_⟩
      rw [joined_cons hcs]
      have hkeep := @before_keep_sublist delim strip kept c
      simpa using hkeep.append_right (joined delim cs)

/-- Where the path devolves, either the sole component has been replaced by
three characters, or `..` components are stripped and what comes out is not
what is expected. -/
theorem walk_devolves (hs : Settled strip kept) (hdev : Devolves strip kept cs) :
    (walk delim strip kept cs = .whole [dot, slash, 0] ∧
        joined delim (removeDots strip kept cs) = []) ∨
      strip = true ∧ ¬∃ E, walk delim strip kept cs = .whole E ∧
        Expected delim (joined delim (removeDots strip kept cs)) E := by
  induction cs generalizing kept with
  | nil => exact hdev.elim
  | cons c cs ih =>
    rcases hdev with ⟨rfl, rfl, hcancel, hlen⟩ | ⟨hflag, rfl, hcs, hfirst⟩ | hdev
    · left
      have hdrop : kept.dropLast = [] := by
        rw [← length_eq_zero_iff, length_dropLast]
        omega
      simp [walk, componentTurn, hcancel, hdrop, removeDots, keepLast]
    · right
      have hcancel : ¬Cancels kept := fun h => h.ne hfirst
      refine ⟨hflag, ?_⟩
      subst hflag
      rintro ⟨E, hE, hexp⟩
      rcases hcs with rfl | rfl
      · -- the end comes to lie in front of the index
        have hturn : walk delim true kept [[dot, dot]] = ⟨[], (kept.length : ℤ) - 1⟩ := by
          simp [walk, componentTurn, hcancel, hfirst]
        have hout : removeDots true kept [[dot, dot]] = kept ++ [[]] := by
          simp [removeDots, keepLast, hcancel]
        rw [hturn] at hE
        rw [hout, joined_concat, append_nil] at hexp
        obtain ⟨rfl, hlen⟩ : [] = E ∧ (kept.length : ℤ) - 1 = E.length := by
          simpa [whole] using hE
        rcases hfirst with rfl | rfl
        · simp at hlen
        · simp [Expected] at hexp
      · -- the last component stays
        have hturn : walk delim true kept [[dot, dot], []] =
            .whole (before delim kept ++ [dot, dot, delim]) := by
          simp [walk, componentTurn, hcancel, hfirst]
        have hout : removeDots true kept [[dot, dot], []] = kept ++ [[]] := by
          simp [removeDots, keep, keepLast, hcancel]
        rw [hturn] at hE
        rw [hout, joined_concat, append_nil] at hexp
        obtain rfl : before delim kept ++ [dot, dot, delim] = E := congrArg text hE
        rcases hfirst with rfl | rfl <;> simp [Expected] at hexp
    · have hcs : cs ≠ [] := by
        rintro rfl
        exact hdev
      have hempty : cs ≠ [[]] := by
        rintro rfl
        simp [Devolves] at hdev
      cases hturn : componentTurn delim strip kept c cs with
      | leave r =>
        -- with a component behind the next one every branch goes on
        unfold componentTurn at hturn
        simp only [hcs, hempty, ne_eq, not_false_eq_true, true_or, if_true, if_false] at hturn
        split_ifs at hturn
      | next kept' =>
        obtain rfl := turn_next_eq_keep hs hturn
        rw [walk, hturn, removeDots_cons hcs]
        exact ih (hs.of_keep c) hdev

/-! ### Paths -/

variable {x : List UniChar} {k₁ k₂ : List (List UniChar)}

theorem notMem_of_splitOn (h : x ∈ path.splitOn delim) : delim ∉ x := by
  induction path generalizing x with
  | nil =>
    obtain rfl : x = [] := by simpa using h
    simp
  | cons a path ih =>
    rw [splitOn_cons_eq_if_modifyHead] at h
    split_ifs at h with ha
    · rcases mem_cons.mp h with rfl | h
      · simp
      · exact ih h
    · obtain ⟨d, ds, hsplit⟩ := exists_cons_of_ne_nil (splitOn_ne_nil delim path)
      rw [hsplit, modifyHead_cons] at h
      rcases mem_cons.mp h with rfl | h
      · intro hmem
        rcases mem_cons.mp hmem with rfl | hmem
        · simp at ha
        · exact ih (by rw [hsplit]; simp) hmem
      · exact ih (by rw [hsplit]; simp [h])

theorem joined_splitOn : joined delim (path.splitOn delim) = path := intercalate_splitOn delim

theorem resolvedPath_eq (hD : delim ≠ dot) (trailing : Bool) (path : List UniChar) :
    resolvedPath delim strip trailing path = some (if trailing then
          stripTrailing delim (walk delim strip [] (path.splitOn delim))
        else walk delim strip [] (path.splitOn delim)) := by
  have hloop := @resolveLoop_eq delim strip [] (path.splitOn delim)
    (path.length + 1) hD (by simp) (splitOn_ne_nil _ _)
    (fun x hx => notMem_of_splitOn hx) (by rw [joined_splitOn]; omega)
  rw [joined_splitOn] at hloop
  simp only [before_nil, nil_append, length_nil] at hloop
  rw [resolvedPath, hloop]
  rfl

/-! ### Resolving twice -/

/-- Components that come out of the function: all but the last are settled,
and the last one stays as it is. -/
structure Final (strip : Bool) (k : List (List UniChar)) (l : List UniChar) : Prop where
  settled : Settled strip k
  last : keepLast strip k l = k ++ [l]

theorem final_nil_last (h : Settled strip kept) : Final strip kept [] := ⟨h, by simp [keepLast]⟩

theorem keepLast_eq_or (strip : Bool) (kept : List (List UniChar)) (c : List UniChar) :
    keepLast strip kept c = kept ++ [[]] ∨ keepLast strip kept c = kept.dropLast ++ [[]] ∨
      keepLast strip kept c = kept ++ [c] := by
  unfold keepLast
  split_ifs <;> simp

theorem keepLast_final (h : Settled strip kept) :
    ∃ k l, keepLast strip kept c = k ++ [l] ∧ Final strip k l ∧
      (∀ x ∈ k, x ∈ kept) ∧ (l = [] ∨ l = c) := by
  rcases keepLast_eq_or strip kept c with h' | h' | h'
  · exact ⟨kept, [], h', final_nil_last h, fun _ hx => hx, .inl rfl⟩
  · exact ⟨kept.dropLast, [], h', final_nil_last h.dropLast,
      fun _ hx => (dropLast_sublist kept).subset hx, .inl rfl⟩
  · exact ⟨kept, c, h', ⟨h, h'⟩, fun _ hx => hx, .inr rfl⟩

theorem mem_of_mem_keep (hx : x ∈ keep strip kept c) : x ∈ kept ∨ x = c := by
  rcases keep_eq_or strip kept c with h | h | h <;> rw [h] at hx
  · exact .inl hx
  · exact .inl ((dropLast_sublist kept).subset hx)
  · simpa using hx

theorem removeDots_final (hs : Settled strip kept) (hne : cs ≠ [])
    (hkept : ∀ x ∈ kept, delim ∉ x) (hcs : ∀ x ∈ cs, delim ∉ x) :
    ∃ k l, removeDots strip kept cs = k ++ [l] ∧ Final strip k l ∧ ∀ x ∈ k ++ [l], delim ∉ x := by
  induction cs generalizing kept with
  | nil => exact absurd rfl hne
  | cons c cs ih =>
    by_cases hnil : cs = []
    · subst hnil
      obtain ⟨k, l, hout, hfinal, hk, hl⟩ := keepLast_final hs
      refine ⟨k, l, hout, hfinal, ?_⟩
      intro x hx
      rcases mem_append.mp hx with hx | hx
      · exact hkept x (hk x hx)
      · obtain rfl : x = l := by simpa using hx
        rcases hl with rfl | rfl
        · simp
        · exact hcs x (by simp)
    · rw [removeDots_cons hnil]
      apply ih (hs.of_keep c) hnil
      · intro x hx
        rcases mem_of_mem_keep hx with hx | rfl
        · exact hkept x hx
        · exact hcs x (by simp)
      · intro x hx
        exact hcs x (by simp [hx])

theorem Settled.of_append (h : Settled strip (k₁ ++ k₂)) : Settled strip k₁ := by
  induction k₂ using reverseRecOn with
  | nil => simpa using h
  | append_singleton k₂ c ih =>
    rw [← append_assoc] at h
    exact ih (settled_concat.mp h).1

theorem Settled.keep_eq (h : Settled strip (k₁ ++ c :: k₂)) : keep strip k₁ c = k₁ ++ [c] := by
  rw [append_cons] at h
  exact (settled_concat.mp h.of_append).2

theorem Final.removeDots_eq (h : Final strip (kept ++ cs) l) :
    removeDots strip kept (cs ++ [l]) = kept ++ cs ++ [l] := by
  induction cs generalizing kept with
  | nil => simpa [removeDots] using h.last
  | cons c cs ih =>
    rw [cons_append, removeDots_cons (by simp), h.settled.keep_eq]
    rw [append_cons] at h
    simpa using ih h

theorem Final.not_devolves (h : Final strip (kept ++ cs) l) : ¬Devolves strip kept (cs ++ [l]) := by
  induction cs generalizing kept with
  | nil =>
    rintro (⟨rfl, -, hcancel, -⟩ | ⟨hflag, rfl, -, hfirst⟩ | hdev)
    · have hlast := h.last
      simp [keepLast, hcancel] at hlast
    · have hcancel : ¬Cancels kept := fun h => h.ne hfirst
      have hlast := h.last
      simp [keepLast, hcancel, hflag] at hlast
    · exact hdev
  | cons c cs ih =>
    rintro (⟨-, hnil, -⟩ | ⟨hflag, rfl, -⟩ | hdev)
    · simp at hnil
    · subst hflag
      exact h.settled.dotDot_not_mem (by simp)
    · rw [h.settled.keep_eq] at hdev
      rw [append_cons] at h
      exact ih h hdev

theorem Settled.final (h : Settled strip (kept ++ [l])) : Final strip kept l := by
  obtain ⟨hk, hkeep⟩ := settled_concat.mp h
  exact ⟨hk, keepLast_of_keep hkeep⟩

section

variable {k : List (List UniChar)}

theorem Final.walk_eq (h : Final strip k l) :
    walk delim strip [] (k ++ [l]) = .whole (joined delim (k ++ [l])) := by
  have h' : Final strip ([] ++ k) l := h
  obtain ⟨E, hE, hexp, -⟩ := @walk_expected delim strip [] (k ++ [l]) settled_nil
    (by simp) h'.not_devolves
  rw [h'.removeDots_eq, nil_append] at hexp
  rcases hexp with rfl | ⟨hnil, -⟩
  · exact hE
  · -- an empty text has one empty component
    have hone : k ++ [l] = [[]] := (joined_eq_nil (by simp)).mp hnil
    rw [hone]
    simp [walk, componentTurn]

theorem Final.resolvedPath_eq (hD : delim ≠ dot) (h : Final strip k l)
    (hfree : ∀ x ∈ k ++ [l], delim ∉ x) (trailing : Bool) :
    resolvedPath delim strip trailing (joined delim (k ++ [l])) = some (if trailing then
          stripTrailing delim (.whole (joined delim (k ++ [l])))
        else .whole (joined delim (k ++ [l]))) := by
  have hsplit : (joined delim (k ++ [l])).splitOn delim = k ++ [l] :=
    splitOn_intercalate delim hfree (by simp)
  rw [Cf.resolvedPath_eq hD, hsplit, h.walk_eq]

end

theorem dotFree_final : ∃ k l, dotFree delim strip path = joined delim (k ++ [l]) ∧
      Final strip k l ∧ ∀ x ∈ k ++ [l], delim ∉ x := by
  obtain ⟨k, l, hout, hfinal, hfree⟩ :=
    @removeDots_final delim strip [] (path.splitOn delim) settled_nil
      (splitOn_ne_nil _ _) (by simp) (fun x hx => notMem_of_splitOn hx)
  exact ⟨k, l, by rw [dotFree, hout]; rfl, hfinal, hfree⟩

theorem dotFree_dropLast_final (hlen : 1 < (dotFree delim strip path).length)
    (hlast : (dotFree delim strip path).getLast? = some delim) :
    ∃ k l, (dotFree delim strip path).dropLast = joined delim (k ++ [l]) ∧
      Final strip k l ∧ ∀ x ∈ k ++ [l], delim ∉ x := by
  obtain ⟨k, l, hout, hfinal, hfree⟩ := dotFree_final
  rw [hout, joined_concat] at hlen hlast ⊢
  have hl : l = [] := by
    by_contra hl
    rw [getLast?_append_of_ne_nil _ hl] at hlast
    exact hfree l (by simp) (mem_of_getLast? hlast)
  subst hl
  rcases eq_nil_or_concat' k with rfl | ⟨k, t, rfl⟩
  · simp at hlen
  · refine ⟨k, t, ?_, hfinal.settled.final, fun x hx => hfree x (mem_append_left _ hx)⟩
    rw [joined_concat]
    simp [← append_assoc]

/-! ### The function -/

theorem strip_whole (text : List UniChar) : stripTrailing delim (.whole text) =
      .whole (if 1 < text.length ∧ text.getLast? = some delim then text.dropLast
        else text) := by
  unfold stripTrailing whole
  have hcast : (1 : ℤ) < text.length ↔ 1 < text.length := by omega
  simp only [hcast]
  split_ifs with h
  · rw [length_dropLast]
    congr 1
    omega
  · rfl

theorem resolved_expected (hD : delim ≠ dot) (trailing : Bool)
    (hgood : ¬Devolves strip [] (path.splitOn delim)) :
    ∃ E, resolvedPath delim strip trailing path =
        some (if trailing then stripTrailing delim (.whole E) else .whole E) ∧
      Expected delim (dotFree delim strip path) E ∧ E.Sublist path := by
  obtain ⟨E, hE, hexp, hsub⟩ := @walk_expected delim strip []
    (path.splitOn delim) settled_nil (splitOn_ne_nil _ _) hgood
  rw [joined_splitOn] at hsub
  exact ⟨E, by rw [resolvedPath_eq hD, hE], hexp, hsub⟩

theorem resolvedPath_dot (trailing : Bool) :
    resolvedPath delim strip trailing [dot] = some (.whole [dot]) := by
  cases trailing <;> simp [resolvedPath, resolveLoop, turn, stripTrailing, whole]

theorem resolved_dot_delimiter : resolvedPath delim strip false [dot, delim] =
      some (.whole [dot, delim]) := by
  simp [resolvedPath, resolveLoop, turn, whole]

theorem resolvesDots_of_whole (hpath : ¬Devolves strip [] (path.splitOn delim))
    (hD : delim ≠ dot) : ResolvesDots delim strip false path := by
  obtain ⟨E, hE, hexp, hsub⟩ := resolved_expected hD false hpath
  refine ⟨E, hE, hsub, hexp, ?_⟩
  rcases hexp with rfl | ⟨-, rfl | rfl⟩
  · obtain ⟨k, l, hout, hfinal, hfree⟩ := dotFree_final
    rw [hout]
    exact hfinal.resolvedPath_eq hD hfree false
  · exact resolvedPath_dot false
  · exact resolved_dot_delimiter

/-- The text without dot components ends in two delimiters behind something
else. -/
def EndsTwice (delim : UniChar) (strip : Bool) (path : List UniChar) : Prop :=
  ∃ t, t ≠ [] ∧ dotFree delim strip path = t ++ [delim, delim]

section

variable (hpath : ¬Devolves strip [] (path.splitOn delim)) (hD : delim ≠ dot)
include hpath hD

theorem resolvesDots_stripped (honce : ¬EndsTwice delim strip path) :
    ResolvesDots delim strip true path := by
  obtain ⟨E, hE, hexp, hsub⟩ := resolved_expected hD true hpath
  rw [if_pos rfl, strip_whole] at hE
  refine ⟨_, hE, ?_, ?_, ?_⟩
  · split_ifs
    · exact (dropLast_sublist E).trans hsub
    · exact hsub
  · unfold dotFreeStripped
    rw [if_pos rfl, strip_whole]
    rcases hexp with rfl | ⟨hnil, rfl | rfl⟩
    · exact .inl rfl
    · exact .inr ⟨by simp [hnil, whole], by simp⟩
    · exact .inr ⟨by simp [hnil, whole], by simp⟩
  · rcases hexp with rfl | ⟨-, rfl | rfl⟩
    · split_ifs with h
      · obtain ⟨k, l, hout, hfinal, hfree⟩ := dotFree_dropLast_final h.1 h.2
        rw [hout, hfinal.resolvedPath_eq hD hfree, if_pos rfl, strip_whole, ← hout, if_neg]
        -- a second delimiter would be stripped now
        rintro ⟨hlen, hlast⟩
        obtain ⟨t, ht⟩ := getLast?_eq_some_iff.mp hlast
        obtain ⟨u, hu⟩ := getLast?_eq_some_iff.mp h.2
        rw [hu, dropLast_concat] at ht hlen
        refine honce ⟨t, ?_, by rw [hu, ht]; simp⟩
        rintro rfl
        simp [ht] at hlen
      · obtain ⟨k, l, hout, hfinal, hfree⟩ := dotFree_final
        rw [hout] at h ⊢
        rw [hfinal.resolvedPath_eq hD hfree, if_pos rfl, strip_whole, if_neg h]
    · simpa using @resolvedPath_dot delim strip true
    · simpa using @resolvedPath_dot delim strip true

theorem not_resolves_endsTwice (htwice : EndsTwice delim strip path) :
    ¬ResolvesDots delim strip true path := by
  rintro ⟨r, hr, -, -, hagain⟩
  obtain ⟨E, hE, hexp, -⟩ := resolved_expected hD true hpath
  obtain ⟨t, ht, htext⟩ := htwice
  have htlen : 0 < t.length := length_pos_iff.mpr ht
  have hEt : E = t ++ [delim, delim] := by
    rcases hexp with rfl | ⟨hnil, -⟩
    · exact htext
    · simp [htext] at hnil
  rw [hE, hEt, if_pos rfl, strip_whole, if_pos (by simp)] at hr
  have hrt : r = t ++ [delim] := by
    have h := congrArg text (some.inj hr)
    simpa [whole] using h.symm
  obtain ⟨k, l, hout, hfinal, hfree⟩ := @dotFree_dropLast_final delim strip path
    (by simp [htext]) (by simp [htext])
  have hrout : r = joined delim (k ++ [l]) := by
    rw [hrt, ← hout, htext]
    simp
  rw [hrout, hfinal.resolvedPath_eq hD hfree, ← hrout, hrt, if_pos rfl, strip_whole,
    if_pos ⟨by simp; omega, by simp⟩] at hagain
  have h := congrArg List.length (congrArg text (some.inj hagain))
  simp [whole] at h

end

theorem not_resolves_devolves (hD : delim ≠ dot) (hzero : delim ≠ 0) {trailing : Bool}
    (hflags : trailing = true → strip = false) (hpath : Devolves strip [] (path.splitOn delim)) :
    ¬ResolvesDots delim strip trailing path:= by
  rintro ⟨r, hr, -, hexp, -⟩
  rw [resolvedPath_eq hD] at hr
  rcases walk_devolves settled_nil hpath with ⟨hwalk, hnil⟩ | ⟨hstrip, hwalk⟩
  · have hr3 : r = [dot, slash, 0] := by
      have hlast : [dot, slash, (0 : UniChar)].getLast? ≠ some delim := by
        simpa using hzero.symm
      have hstay : stripTrailing delim (.whole [dot, slash, 0]) = .whole [dot, slash, 0] := by
        rw [strip_whole, if_neg fun h => hlast h.2]
      rw [hwalk, hstay, ite_self] at hr
      have h := congrArg text (some.inj hr)
      exact h.symm
    have hfree : dotFreeStripped delim strip trailing path = [] := by
      have hnil' : dotFree delim strip path = [] := hnil
      unfold dotFreeStripped
      rw [hnil', strip_whole]
      simp [whole]
    rw [hfree, hr3] at hexp
    simp at hexp
  · have htrailing : trailing = false := by
      cases trailing with
      | false => rfl
      | true => simp [hstrip] at hflags
    subst htrailing
    exact hwalk ⟨r, some.inj hr, hexp⟩

/-- With the delimiters and flags of its callers the function resolves a path
exactly if it does not devolve and, where the trailing delimiter is stripped,
the text to be returned does not end in two. -/
theorem resolvesDots_iff {trailing : Bool} (hcall : Called delim strip trailing) :
    ResolvesDots delim strip trailing path ↔ ¬Devolves strip [] (path.splitOn delim) ∧
        ¬(trailing = true ∧ EndsTwice delim strip path) := by
  have hD : delim ≠ dot := by cases hcall <;> decide
  have hzero : delim ≠ 0 := by cases hcall <;> decide
  have hflags : trailing = true → strip = false := by cases hcall <;> decide
  constructor
  · intro h
    have hpath : ¬Devolves strip [] (path.splitOn delim) := fun hdev =>
      not_resolves_devolves hD hzero hflags hdev h
    refine ⟨hpath, ?_⟩
    rintro ⟨rfl, htwice⟩
    exact not_resolves_endsTwice hpath hD htwice h
  · rintro ⟨hpath, honce⟩
    cases trailing with
    | false => exact resolvesDots_of_whole hpath hD
    | true => exact resolvesDots_stripped hpath hD fun htwice => honce ⟨rfl, htwice⟩

/-- The path `/a/./b//..//c/`. -/
theorem resolvesDots_iff_slashes : ResolvesDots slash true false
        [0x2F, 0x61, 0x2F, 0x2E, 0x2F, 0x62, 0x2F, 0x2F, 0x2E, 0x2E, 0x2F, 0x2F, 0x63, 0x2F] ↔
      ¬Devolves true [] (splitOn slash
          [0x2F, 0x61, 0x2F, 0x2E, 0x2F, 0x62, 0x2F, 0x2F, 0x2E, 0x2E, 0x2F, 0x2F, 0x63, 0x2F]) ∧
        ¬(false = true ∧ EndsTwice slash true
          [0x2F, 0x61, 0x2F, 0x2E, 0x2F, 0x62, 0x2F, 0x2F, 0x2E, 0x2E, 0x2F, 0x2F, 0x63, 0x2F]) :=
  resolvesDots_iff .copyAbsoluteURL

/-- For `a/..` the function returns `./` and a null character, for `..` with
the leading `..` stripped a text of length `-1`, and for `a//` a text that it
resolves further. -/
theorem not_resolvesDots :
    resolvedPath slash false false [0x61, 0x2F, 0x2E, 0x2E] = some (.whole [0x2E, 0x2F, 0]) ∧
      (resolvedPath slash true false [0x2E, 0x2E]).map Resolved.length = some (-1) ∧
      resolvedPath slash false true [0x61, 0x2F, 0x2F] = some (.whole [0x61, 0x2F]) ∧
      resolvedPath slash false true [0x61, 0x2F] = some (.whole [0x61]) ∧
      ¬ResolvesDots slash false false [0x61, 0x2F, 0x2E, 0x2E] ∧
      ¬ResolvesDots slash true false [0x2E, 0x2E] ∧
      ¬ResolvesDots slash false true [0x61, 0x2F, 0x2F] := by
  have hsole : resolvedPath slash false false [0x61, 0x2F, 0x2E, 0x2E] =
      some (.whole [0x2E, 0x2F, 0]) := by decide
  have hleading : (resolvedPath slash true false [0x2E, 0x2E]).map Resolved.length =
      some (-1) := by decide
  have htrailing : resolvedPath slash false true [0x61, 0x2F, 0x2F] =
      some (.whole [0x61, 0x2F]) := by decide
  have hagain : resolvedPath slash false true [0x61, 0x2F] = some (.whole [0x61]) := by decide
  refine ⟨hsole, hleading, htrailing, hagain, ?_, ?_, ?_⟩
  · rintro ⟨r, hr, hsub, -⟩
    have hr' : [0x2E, 0x2F, 0] = r := congrArg text (some.inj hr)
    rw [← hr'] at hsub
    exact absurd hsub (by decide)
  · rintro ⟨r, hr, -⟩
    rw [hr] at hleading
    have hlen : (r.length : ℤ) = -1 := some.inj hleading
    omega
  · rintro ⟨r, hr, -, -, hr2⟩
    have hr' : [0x61, 0x2F] = r := congrArg text (some.inj hr)
    rw [← hr', hagain] at hr2
    exact absurd (congrArg text (some.inj hr2)) (by decide)

end Hexley.Cf
