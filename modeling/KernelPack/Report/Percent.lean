import KernelPack.Text.Double

/-!
# Percentages

A ratio of two counts is reported as a whole percentage, computed in **double precision**: the
counts, their quotient and its hundredfold are each rounded to 53 significant bits, and the last
is rounded to a whole number. Every rounding goes to the nearest value and a tie to the even one.
-/

namespace KernelPack.Percent

/-- The size of a percentage, both counts taken without sign and the whole not zero. -/
def magnitude (part whole : Nat) : Nat :=
  let (pn, pd) := (Binary.nearest part 1).fraction
  let (wn, wd) := (Binary.nearest whole 1).fraction
  let (n, d) := (Binary.nearest (pn * wd) (pd * wn)).fraction
  (Binary.nearest (n * 100) d).round

/-- The percentage that `part` is of `whole`; zero if there is no whole. The sign is shown even
where the size rounds to zero. -/
def render (part whole : Int) : Bytes :=
  if whole = 0 then utf8 "0"
  else
    let size := Numeral.decimal (magnitude part.natAbs whole.natAbs)
    if (part < 0) != (whole < 0) then utf8 "-" ++ size else size

end KernelPack.Percent
