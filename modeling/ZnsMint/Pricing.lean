import ZnsMint.Note

/-! # The name schedule

The tariff of a name in US dollars and its quote in zatoshis at a rate (`src/mint/pricing.rs`). The
rate is the oracle's, and is a parameter here. -/

namespace ZnsMint.Pricing

open Basic Note

/-- Annual price in US dollars of the names of one to five characters. -/
def ANNUAL_USD : List ℕ := [10000, 2500, 800, 400, 100]

def MINIMUM_USD : ℕ := 20

/-- Forever costs three annual prices. -/
def FOREVER_MULTIPLE : ℕ := 3

def annualUsd (name : Name) : ℕ := (ANNUAL_USD[name.bytes.length - 1]?).getD MINIMUM_USD

def foreverUsd (name : Name) : ℕ := annualUsd name * FOREVER_MULTIPLE

/-- `Oracle::quote_at`: absent when the product does not fit an amount. -/
def quoteAt (rate : Zatoshis) (name : Name) (term : Term) : Option Zatoshis :=
  let usd :=
    match term with
    | .forever => foreverUsd name
    | .years n => annualUsd name * n
  Zatoshis.fromU64 (usd * rate.val)

end ZnsMint.Pricing
