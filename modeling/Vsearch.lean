import Vsearch.Subsample.Sampling
import Vsearch.Subsample.Uniform
import Vsearch.Subsample.Output
import Vsearch.Subsample.Width
import Vsearch.FastqJoin.Loop
import Vsearch.FastqChars.Summary
