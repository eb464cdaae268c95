import Mathlib.Data.Nat.Digits.Lemmas

/-! Numbers in a base, most significant digit first, and the reading of the longest run of digits. -/
namespace DominOS.NumberText
universe u v
variable {α : Type u} {b n k : Nat} {ds es : List Nat}

def digitsOf (b n : Nat) : List Nat := if n = 0 then [0] else (Nat.digits b n).reverse

def valueFrom (b : Nat) : Nat → List Nat → Nat := List.foldl fun v d => v * b + d

@[simp] theorem valueFrom_nil (v : Nat) : valueFrom b v [] = v := rfl

@[simp] theorem valueFrom_cons (v d : Nat) : valueFrom b v (d :: ds) = valueFrom b (v * b + d) ds := rfl

theorem valueFrom_append (v : Nat) : valueFrom b v (ds ++ es) = valueFrom b (valueFrom b v ds) es :=
  List.foldl_append

theorem le_valueFrom (hb : 0 < b) (v : Nat) (ds : List Nat) : v ≤ valueFrom b v ds := by
  induction ds generalizing v with
  | nil => exact le_rfl
  | cons d ds ih =>
    calc
      v ≤ v * b + d := le_add_right (Nat.le_mul_of_pos_right v hb)
      _ ≤ valueFrom b v (d :: ds) := ih _

theorem digitsOf_ne_nil : digitsOf b n ≠ [] := by
  unfold digitsOf
  split
  · simp
  · rename_i h
    simpa [Nat.digits_eq_nil_iff_eq_zero] using h

theorem digitsOf_lt (h : n < b) : digitsOf b n = [n] := by
  unfold digitsOf
  split
  · rename_i hn
    rw [hn]
  · rename_i hn
    rw [Nat.digits_of_lt b n hn h, List.reverse_singleton]

theorem digitsOf_ge (hb : 1 < b) (h : b ≤ n) : digitsOf b n = digitsOf b (n / b) ++ [n % b] := by
  have hn : n ≠ 0 := by omega
  have hq : n / b ≠ 0 := by
    have := Nat.div_pos h (by omega)
    omega
  unfold digitsOf
  rw [if_neg hn, if_neg hq, Nat.digits_eq_cons_digits_div hb hn, List.reverse_cons]

theorem mem_digitsOf (hb : 1 < b) {d : Nat} (hd : d ∈ digitsOf b n) : d < b := by
  unfold digitsOf at hd
  split at hd
  · simp only [List.mem_singleton] at hd
    omega
  · exact Nat.digits_lt_base hb (List.mem_reverse.mp hd)

theorem length_digitsOf_le (hb : 1 < b) (hk : 0 < k) (h : n < b ^ k) :
    (digitsOf b n).length ≤ k := by
  unfold digitsOf
  split
  · exact hk
  · rw [List.length_reverse]
    exact (Nat.digits_length_le_iff hb n).mpr h

theorem valueFrom_reverse (v : Nat) (ds : List Nat) :
    valueFrom b v ds.reverse = Nat.ofDigits b ds + v * b ^ ds.length := by
  induction ds generalizing v with
  | nil => simp
  | cons d ds ih =>
    rw [List.reverse_cons, valueFrom_append, ih, valueFrom_cons, valueFrom_nil, Nat.ofDigits_cons,
      List.length_cons, pow_succ]
    ring

theorem valueFrom_digitsOf : valueFrom b 0 (digitsOf b n) = n := by
  unfold digitsOf
  split
  · rename_i h
    simp [h]
  · rw [valueFrom_reverse, Nat.ofDigits_digits]
    simp

theorem valueFrom_zeros (k : Nat) : valueFrom b 0 (List.replicate k 0) = 0 := by
  induction k with
  | zero => rfl
  | succ k ih => simpa [List.replicate_succ] using ih

theorem digitsOf_head (hn : n ≠ 0) {d : Nat} (h : (digitsOf b n).head? = some d) : d ≠ 0 := by
  unfold digitsOf at h
  rw [if_neg hn, List.head?_reverse] at h
  have hne : Nat.digits b n ≠ [] := Nat.digits_ne_nil_iff_ne_zero.mpr hn
  rw [List.getLast?_eq_some_getLast hne, Option.some.injEq] at h
  rw [← h]
  exact Nat.getLast_digit_ne_zero b hn

/-- Reading digits as long as there are any, with `step` for each. -/
def scan {σ : Type v} (digit : α → Option Nat) (step : σ → Nat → σ) : σ → List α → σ × List α
  | v, [] => (v, [])
  | v, c :: p =>
    match digit c with
    | some d => scan digit step (step v d) p
    | none => (v, c :: p)

def Stops (digit : α → Option Nat) (p : List α) : Prop := ∀ c ∈ p.head?, digit c = none

theorem Stops.scan {σ : Type v} {digit : α → Option Nat} {step : σ → Nat → σ} {p : List α}
    (h : Stops digit p) (v : σ) : scan digit step v p = (v, p) := by
  cases p with
  | nil => rfl
  | cons c p =>
    have hc : digit c = none := h c rfl
    unfold NumberText.scan
    rw [hc]

theorem scan_map {σ : Type v} {digit : α → Option Nat} {step : σ → Nat → σ} {char : Nat → α}
    {rest : List α} (hdigit : ∀ d ∈ ds, digit (char d) = some d) (hrest : Stops digit rest) (v : σ) :
    scan digit step v (ds.map char ++ rest) = (ds.foldl step v, rest) := by
  induction ds generalizing v with
  | nil => exact hrest.scan v
  | cons d ds ih =>
    have hd : digit (char d) = some d := hdigit d List.mem_cons_self
    rw [List.map_cons, List.cons_append, NumberText.scan, hd]
    exact ih (fun e he => hdigit e (List.mem_cons_of_mem d he)) (step v d)

end DominOS.NumberText
